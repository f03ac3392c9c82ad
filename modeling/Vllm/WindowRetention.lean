import Vllm.LongestHit

/-!
Retention and lookup of sliding windows. `reachable_block_mask` says which
blocks are registered under sparse retention; a later lookup bounded by a
retained boundary should find the boundary from those blocks alone. The mask
and the lookup compute the window, the block for EAGLE and the alignment
separately; here they are compared.
-/
namespace Vllm.WindowRetention

open BlockHashing BlockHashMap CacheManagers CacheHit LongestHit
open Pool hiding resolveBlockHashes

variable {n : ℕ}

/-- A boundary whose tail is retained: a segment boundary, or a reachable
boundary rounded down to the alignment. -/
def RetainedBoundary (alignmentTokens : ℕ) (retentionInterval : Option ℕ)
    (reachableBoundaries : List ℕ) (boundary : ℕ) : Prop :=
  match retentionInterval with
  | none => alignmentTokens ∣ boundary
  | some interval =>
    (0 < interval ∧ interval ∣ boundary) ∨
      ∃ b ∈ reachableBoundaries, boundary = b / alignmentTokens * alignmentTokens

def eagleShift (useEagle : Bool) : ℕ := if useEagle then 1 else 0

def Kept (mask : Option (List Bool)) (i : ℕ) : Prop :=
  ∀ bits ∈ mask, bits[i]? = some true

/-- The last `need` blocks before a segment boundary are at the end of their
segment. -/
theorem segment_tail {per need q j : ℕ} (hper : need < per) (hq : 0 < q) (hdvd : per ∣ q)
    (hlt : j < q) (htail : q ≤ j + need) : per - need ≤ j % per := by
  obtain ⟨t, rfl⟩ := hdvd
  obtain ⟨t, rfl⟩ : ∃ p, t = p + 1 := Nat.exists_eq_succ_of_ne_zero (by rintro rfl; simp at hq)
  obtain ⟨d, hd⟩ : ∃ d, j + (d + 1) = per * (t + 1) := ⟨per * (t + 1) - j - 1, by omega⟩
  rw [Nat.mul_succ] at hd htail
  have hj : j = per * t + (per - (d + 1)) := by omega
  rw [hj, Nat.mul_add_mod, Nat.mod_eq_of_lt (by omega)]
  omega

section
variable {blockSize window alignmentTokens : ℕ} {useEagle : Bool} {boundaries : List ℕ}
  {boundary : ℕ}

/-- The tail before a segment boundary is kept. -/
theorem segment_kept {need segment j : ℕ} (hb : 0 < blockSize) (hdvd : blockSize ∣ segment)
    (hneed : need < segment / blockSize) (hpos : 0 < boundary) (hboundary : segment ∣ boundary)
    (hlt : j < boundary / blockSize + eagleShift useEagle)
    (htail : boundary / blockSize + eagleShift useEagle ≤ j + need) :
    eagleShift useEagle ≤ j ∧
      segment / blockSize - need ≤ (j - eagleShift useEagle) % (segment / blockSize) := by
  obtain ⟨per, rfl⟩ := hdvd
  obtain ⟨t, rfl⟩ := hboundary
  rw [Nat.mul_div_cancel_left _ hb] at hneed ⊢
  rw [Nat.mul_assoc, Nat.mul_div_cancel_left _ hb] at hlt htail
  have hq : 0 < per * t := Nat.pos_of_mul_pos_left (by rwa [Nat.mul_assoc] at hpos)
  have hle : per ≤ per * t := Nat.le_of_dvd hq (Nat.dvd_mul_right _ _)
  refine ⟨by omega, segment_tail hneed hq (Nat.dvd_mul_right _ _) (by omega) (by omega)⟩

/-- The tail before a reachable boundary is kept. -/
theorem boundary_kept {need j : ℕ}
    (hboundary : ∃ b ∈ boundaries, boundary = b / alignmentTokens * alignmentTokens)
    (hlt : j < boundary / blockSize + eagleShift useEagle)
    (htail : boundary / blockSize + eagleShift useEagle ≤ j + need) :
    ∃ b ∈ boundaries,
      b / alignmentTokens * alignmentTokens / blockSize + eagleShift useEagle - need ≤ j ∧
        j < b / alignmentTokens * alignmentTokens / blockSize + eagleShift useEagle := by
  obtain ⟨b, hb, rfl⟩ := hboundary
  exact ⟨b, hb, by omega, hlt⟩

theorem window_kept {retentionInterval : Option ℕ} (hb : 0 < blockSize)
    (hal : blockSize ∣ alignmentTokens)
    (hret : ∀ interval ∈ retentionInterval, alignmentTokens ∣ interval) (hpos : 0 < boundary)
    (hboundary : RetainedBoundary alignmentTokens retentionInterval boundaries boundary) {j : ℕ}
    (hlt : j < boundary / blockSize + eagleShift useEagle)
    (htail : boundary / blockSize + eagleShift useEagle ≤
      j + contiguousBlocksForHit window blockSize useEagle) :
    Kept (slidingWindowMask blockSize window alignmentTokens useEagle retentionInterval 0
      (boundary / blockSize + eagleShift useEagle) boundaries) j := by
  intro bits hbits
  have hbit (f : ℕ → Bool) (hf : f j = true) :
      ((List.range' 0 (boundary / blockSize + eagleShift useEagle - 0)).map f)[j]? = some true := by
    simp [hlt, hf]
  cases retentionInterval with
  | none =>
    by_cases hper : alignmentTokens / blockSize ≤ contiguousBlocksForHit window blockSize useEagle
    · simp [slidingWindowMask, hper] at hbits
    · simp only [slidingWindowMask, if_neg hper, Option.mem_def, Option.some.injEq] at hbits
      obtain rfl := hbits
      have hkept := segment_kept hb hal (Nat.lt_of_not_le hper) hpos hboundary hlt htail
      exact hbit _ (Bool.or_eq_true_iff.mpr (.inl (decide_eq_true hkept)))
  | some interval =>
    cases interval with
    | zero =>
      simp only [slidingWindowMask, Option.mem_def, Option.some.injEq] at hbits
      obtain rfl := hbits
      rcases hboundary with hseg | hboundary
      · exact absurd hseg.1 (Nat.lt_irrefl 0)
      · exact hbit _ (decide_eq_true ⟨rfl, boundary_kept hboundary hlt htail⟩)
    | succ interval =>
      by_cases hper : (interval + 1) / blockSize ≤ contiguousBlocksForHit window blockSize useEagle
      · simp [slidingWindowMask, hper] at hbits
      · simp only [slidingWindowMask, if_neg hper, Option.mem_def, Option.some.injEq] at hbits
        obtain rfl := hbits
        rcases hboundary with hseg | hboundary
        · have hkept := segment_kept hb (hal.trans (hret _ rfl)) (Nat.lt_of_not_le hper) hpos
            hseg.2 hlt htail
          exact hbit _ (Bool.or_eq_true_iff.mpr (.inl (decide_eq_true hkept)))
        · exact hbit _ (Bool.or_eq_true_iff.mpr
            (.inr (decide_eq_true ⟨rfl, boundary_kept hboundary hlt htail⟩)))
end

/-! ### Agreement -/

theorem RetainedBoundary.aligned {alignmentTokens boundary : ℕ} {retentionInterval : Option ℕ}
    {boundaries : List ℕ}
    (hret : ∀ interval ∈ retentionInterval, alignmentTokens ∣ interval)
    (h : RetainedBoundary alignmentTokens retentionInterval boundaries boundary) :
    alignmentTokens ∣ boundary := by
  cases retentionInterval with
  | none => exact h
  | some interval =>
    rcases h with ⟨-, hseg⟩ | ⟨b, -, rfl⟩
    · exact (hret interval rfl).trans hseg
    · exact Nat.dvd_mul_left _ _

theorem contiguousBlocksForHit_pos_iff {window blockSize : ℕ} (hb : 0 < blockSize)
    (useEagle : Bool) :
    0 < contiguousBlocksForHit window blockSize useEagle ↔ 1 < window ∨ useEagle = true := by
  have hcdiv : 0 < cdiv (window - 1) blockSize ↔ 1 < window := by
    unfold cdiv
    rw [Nat.div_pos_iff]
    omega
  cases useEagle <;> simp [contiguousBlocksForHit, hcdiv]

/-- How many blocks a window needs before a boundary, in tokens. -/
theorem contiguousBlocksForHit_le_iff {blockSize : ℕ} (window q : ℕ) (hb : 0 < blockSize) :
    contiguousBlocksForHit window blockSize true ≤ q + 1 ↔ window ≤ q * blockSize + 1 := by
  simp only [contiguousBlocksForHit, cdiv, if_true, Nat.add_le_add_iff_right]
  rw [Nat.div_le_iff_le_mul_add_pred hb, Nat.mul_comm]
  omega

section
variable {pool : BlockPool n} {window blockSize : ℕ+} {groupIds : List GroupId}
  {alignmentTokens boundary : ℕ} {blockHashes hashes : List BlockHash}

/-- The window before a boundary is cached exactly if it is kept by the mask or
its only block is cached anyway. -/
theorem windowCached_iff {probe : ℕ → Option (Row n)} {need q : ℕ} (hq : 0 < q)
    (hcached : ∀ j < q, q ≤ j + need → (probe j).isSome) :
    WindowCached probe need q ↔ 0 < need ∨ (probe (q - 1)).isSome := by
  rcases Nat.eq_zero_or_pos need with rfl | hneed
  · constructor
    · intro h
      exact .inr (h (q - 1) (by omega) (by omega))
    · rintro (h | h) j hj hwin
      · omega
      · obtain rfl : j = q - 1 := by omega
        exact h
  · refine ⟨fun _ => Or.inl hneed, fun _ j hj hwin => hcached j hj (by omega)⟩

variable (hal : (blockSize : ℕ) ∣ alignmentTokens) (hpos : 0 < boundary)
  (haligned : alignmentTokens ∣ boundary)
include hal hpos haligned

theorem boundary_blocks : ∃ u q, alignmentTokens = u * blockSize ∧ boundary = q * blockSize ∧
    0 < q ∧ u ∣ q := by
  obtain ⟨u, rfl⟩ := dvd_iff_exists_eq_mul_left.mp hal
  obtain ⟨q, rfl⟩ := dvd_iff_exists_eq_mul_left.mp (hal.trans haligned)
  exact ⟨u, q, rfl, rfl, Nat.pos_of_mul_pos_right hpos,
    (Nat.mul_dvd_mul_iff_right blockSize.pos).mp haligned⟩

variable
  (hresolve : resolveBlockHashes blockHashes pool.hashBlockSize blockSize false = .ok hashes)
include hresolve

/-- Without EAGLE the boundary is hit exactly if its window is cached, and a
window of one token keeps no block for it. -/
theorem hit_iff_of_keep (hcovered : boundary / blockSize ≤ hashes.length)
    (hcached : ∀ j < boundary / blockSize,
      boundary / blockSize ≤ j + contiguousBlocksForHit window blockSize false →
        (probeAt pool groupIds hashes j).isSome) :
    (∃ rows hit, findSlidingWindow pool window blockSize groupIds blockHashes boundary false
        alignmentTokens = .ok (rows, hit) ∧ boundary ≤ hit) ↔
      1 < (window : ℕ) ∨ (probeAt pool groupIds hashes (boundary / blockSize - 1)).isSome := by
  have hb := blockSize.pos
  obtain ⟨u, q, rfl, rfl, hq, hu⟩ := boundary_blocks hal hpos haligned
  obtain ⟨e, hle, hwindow, hgreatest, hfind⟩ := findSlidingWindow_spec window groupIds false
    (Nat.mul_mod_left u blockSize) hresolve hcovered
  rw [Nat.mul_div_cancel _ hb] at hle hgreatest hcached ⊢
  have hdvd : u ∣ e := by
    rcases Nat.eq_zero_or_pos e with rfl | he
    · exact dvd_zero u
    · exact (endAligned_iff hb false e).mp (hwindow he).1
  rw [slidingCount_keep hb hdvd] at hfind
  have hcond := windowCached_iff hq hcached
  rw [contiguousBlocksForHit_pos_iff hb, Bool.false_eq_true, or_false] at hcond
  rw [hfind, ← hcond]
  constructor
  · rintro ⟨rows, hit, hok, hboundary⟩
    obtain ⟨-, rfl⟩ := Prod.mk.inj (Except.ok.inj hok)
    obtain rfl : e = q := le_antisymm hle (Nat.le_of_mul_le_mul_right hboundary hb)
    exact (hwindow hq).2
  · intro h
    have hqe : q ≤ e := hgreatest q hq le_rfl ((endAligned_iff hb false q).mpr hu) h
    exact ⟨_, _, rfl, Nat.mul_le_mul_right _ hqe⟩

/-- With EAGLE the block after the boundary is cached too. The boundary is hit
unless its window reaches past the start of the request, where the lookup
aligns before it drops the block. -/
theorem hit_iff_of_drop (hcovered : boundary / blockSize + 1 ≤ hashes.length)
    (hcached : ∀ j < boundary / blockSize + 1,
      boundary / blockSize + 1 ≤ j + contiguousBlocksForHit window blockSize true →
        (probeAt pool groupIds hashes j).isSome) :
    (∃ rows hit, findSlidingWindow pool window blockSize groupIds blockHashes
        (boundary + blockSize) true alignmentTokens = .ok (rows, hit) ∧ boundary ≤ hit) ↔
      (blockSize : ℕ) = alignmentTokens ∨ (window : ℕ) ≤ boundary + 1 := by
  have hb := blockSize.pos
  obtain ⟨u, q, rfl, rfl, hq, hu⟩ := boundary_blocks hal hpos haligned
  have hupos : 0 < u := Nat.pos_of_dvd_of_pos hu hq
  have hmax : (q * blockSize + blockSize) / blockSize = q + 1 := by
    rw [← Nat.succ_mul, Nat.mul_div_cancel _ hb]
  rw [Nat.mul_div_cancel _ hb] at hcovered hcached
  obtain ⟨e, hle, hwindow, hgreatest, hfind⟩ := findSlidingWindow_spec window groupIds true
    (Nat.mul_mod_left u blockSize) hresolve (by rwa [hmax])
  rw [hmax] at hle hgreatest
  have hneed : 0 < contiguousBlocksForHit window blockSize true :=
    (contiguousBlocksForHit_pos_iff hb true).mpr (.inr rfl)
  have hends : EndAligned blockSize (u * blockSize) true (q + 1) :=
    (endAligned_iff hb true (q + 1)).mpr (by simpa using hu)
  have hcachedEnd := (windowCached_iff (Nat.succ_pos q) hcached).mpr (.inl hneed)
  obtain rfl : e = q + 1 := le_antisymm hle (hgreatest (q + 1) (by omega) le_rfl hends hcachedEnd)
  rw [hfind]
  have hfits := contiguousBlocksForHit_le_iff window q hb
  have hone : (blockSize : ℕ) = u * blockSize ↔ u = 1 := by
    constructor
    · intro h
      exact Nat.eq_of_mul_eq_mul_right hb (by omega)
    · rintro rfl
      omega
  rw [hone, ← hfits]
  by_cases hfit : contiguousBlocksForHit window blockSize true ≤ q + 1
  · have hfound : decide (max (contiguousBlocksForHit window blockSize true) 1 ≤ q + 1) = true :=
      decide_eq_true (by omega)
    rw [hfound, slidingCount_drop_found hb (by omega) (by simpa using hu)]
    exact iff_of_true ⟨_, _, rfl, le_rfl⟩ (.inr hfit)
  · have hfound : decide (max (contiguousBlocksForHit window blockSize true) 1 ≤ q + 1) = false :=
      decide_eq_false (by omega)
    rw [hfound, slidingCount_drop_short hb hupos (by simpa using hu)]
    by_cases hu1 : u = 1
    · exact iff_of_true ⟨_, _, rfl, by simp [hu1]⟩ (.inl hu1)
    · refine iff_of_false ?_ (by tauto)
      rintro ⟨rows, hit, hok, hboundary⟩
      obtain ⟨-, rfl⟩ := Prod.mk.inj (Except.ok.inj hok)
      rw [if_neg hu1] at hboundary
      have := Nat.le_of_mul_le_mul_right hboundary hb
      omega
end

/-- What the mask of a retained boundary keeps is enough for the lookup to hit
the boundary, apart from two cases: a window of one token without EAGLE keeps no
block, and with EAGLE a lookup that is aligned to more than a block loses a
boundary that lies within the first window. -/
theorem retained_boundary_hit_iff (pool : BlockPool n) (window blockSize : ℕ+)
    (groupIds : List GroupId) (alignmentTokens : ℕ) (hal : (blockSize : ℕ) ∣ alignmentTokens)
    (useEagle : Bool) (retentionInterval : Option ℕ)
    (hret : ∀ interval ∈ retentionInterval, alignmentTokens ∣ interval) (boundaries : List ℕ)
    (boundary : ℕ) (hpos : 0 < boundary)
    (hboundary : RetainedBoundary alignmentTokens retentionInterval boundaries boundary)
    (blockHashes hashes : List BlockHash)
    (hresolve : resolveBlockHashes blockHashes pool.hashBlockSize blockSize false = .ok hashes)
    (hcovered : boundary / blockSize + eagleShift useEagle ≤ hashes.length)
    (hcached : ∀ i < boundary / blockSize + eagleShift useEagle,
      Kept (slidingWindowMask blockSize window alignmentTokens useEagle retentionInterval 0
        (boundary / blockSize + eagleShift useEagle) boundaries) i →
          (probeAt pool groupIds hashes i).isSome) :
    (∃ rows hit, findSlidingWindow pool window blockSize groupIds blockHashes
        (boundary + eagleShift useEagle * blockSize) useEagle alignmentTokens = .ok (rows, hit) ∧
          boundary ≤ hit) ↔
      (1 < (window : ℕ) ∨ useEagle = true ∨
        (probeAt pool groupIds hashes (boundary / blockSize - 1)).isSome) ∧
      (useEagle = true → (blockSize : ℕ) = alignmentTokens ∨ (window : ℕ) ≤ boundary + 1) := by
  have haligned := hboundary.aligned hret
  have hwindow : ∀ j < boundary / blockSize + eagleShift useEagle,
      boundary / blockSize + eagleShift useEagle ≤
        j + contiguousBlocksForHit window blockSize useEagle →
          (probeAt pool groupIds hashes j).isSome := fun j hj htail =>
    hcached j hj (window_kept blockSize.pos hal hret hpos hboundary hj htail)
  cases useEagle with
  | false =>
    simp only [eagleShift, Bool.false_eq_true, if_false, Nat.zero_mul, Nat.add_zero] at *
    simpa using hit_iff_of_keep hal hpos haligned hresolve hcovered hwindow
  | true =>
    simp only [eagleShift, if_true, Nat.one_mul] at *
    simpa using hit_iff_of_drop hal hpos haligned hresolve hcovered hwindow

def unitHashes (k : ℕ) : List BlockHash := (List.range k).map fun i => [UInt8.ofNat i]

def unitPool (k : ℕ) : BlockPool (((unitHashes k).map (makeBlockHashWithGroupId · 0)).length + 1) :=
  poolHolding 1 ((unitHashes k).map (makeBlockHashWithGroupId · 0))

/-- A window of 2 tokens at the boundary 2, without EAGLE. -/
theorem retained_boundary_hit_two :
    ∃ rows hit, findSlidingWindow (unitPool 2) 2 1 [0] (unitHashes 2) 2 false 2 = .ok (rows, hit) ∧
      2 ≤ hit :=
  have hcached : ∀ i < 2, (probeAt (unitPool 2) [0] (unitHashes 2) i).isSome := by decide +kernel
  (retained_boundary_hit_iff (unitPool 2) 2 1 [0] 2 (by decide) false none (by simp) [] 2
    (by decide) (dvd_refl 2) (unitHashes 2) (unitHashes 2) rfl (by decide)
    fun i hi _ => hcached i hi).mpr (by decide)

/-- With EAGLE, an alignment of two blocks and a window of 4 tokens every block
up to the boundary 2 and the one after it is kept and cached, and nothing is
hit. -/
theorem retained_boundary_missed : slidingWindowMask 1 4 2 true none 0 3 [] = none ∧
      (∀ i < 3, (probeAt (unitPool 3) [0] (unitHashes 3) i).isSome) ∧
      findSlidingWindow (unitPool 3) 4 1 [0] (unitHashes 3) 3 true 2 = .ok ([], 0) := by
  refine ⟨rfl, by decide +kernel, rfl⟩

end Vllm.WindowRetention
