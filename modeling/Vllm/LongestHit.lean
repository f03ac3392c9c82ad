import Vllm.CacheHit

/-!
What the lookups find. Lengths are counted in units of the hash block size, and
`unit i` is what the pool holds for the hash of unit `i`. Every lookup returns
the greatest length within its bound that its kind of layer accepts: all blocks
before it for full attention, the window before it for sliding windows, the
state at it for Mamba. Blocks dropped for EAGLE are part of the statements for
full attention and sliding windows.
-/
namespace Vllm.LongestHit

open BlockHashing BlockHashMap CacheManagers CacheHit List
open Pool hiding resolveBlockHashes

variable {n : ℕ} {k i c u b : ℕ} {row : Row n} {ends : ℕ → Prop} {computed : List (Row n)}

/-- A pool in which every key is held by a block of its own, as it is left when
the requests that registered the keys have ended. -/
def poolHolding (hashBlockSize : ℕ) (keys : List BlockHashWithGroupId) :
    BlockPool (keys.length + 1) where
  enableCaching := true
  hashBlockSize := hashBlockSize
  blocks b :=
    { refCnt := 0, blockHash := if b = 0 then none else keys[b.val - 1]?
      blockHashNumTokens := none, isNull := decide (b = 0) }
  freeBlockQueue := FreeBlockQueue.init (List.finRange (keys.length + 1)).tail
  cachedBlockHashToBlock := ⟨fun key =>
    if h : keys.idxOf key < keys.length then some (.one ⟨keys.idxOf key + 1, Nat.succ_lt_succ h⟩)
    else none⟩
  cachedBlockHashesByBlock _ := none
  nullBlock := 0
  enableKvCacheEvents := false
  kvEventQueue := []

/-! ### The loops -/

def rowsFrom (probe : ℕ → Option (Row n)) (first k : ℕ) : List (Row n) :=
  (List.range k).map fun j => (probe (first + j)).getD []

variable (probe : ℕ → Option (Row n)) {skip : ℕ → Bool} {first : ℕ}

@[simp]
theorem length_rowsFrom (first k : ℕ) : (rowsFrom probe first k).length = k := by
  simp [rowsFrom]

theorem rowsFrom_succ (first k : ℕ) :
    rowsFrom probe first (k + 1) = (probe first).getD [] :: rowsFrom probe (first + 1) k := by
  simp [rowsFrom, range_succ_eq_map, Function.comp_def, Nat.add_assoc, Nat.add_comm 1]

theorem take_rowsFrom (first : ℕ) {l : ℕ} (h : k ≤ l) :
    (rowsFrom probe first l).take k = rowsFrom probe first k := by
  simp [rowsFrom, ← map_take, take_range, Nat.min_eq_left h]

/-- The scan from the left stops at the bound or at the first miss. -/
theorem cachedRun_spec (i k : ℕ) :
    ∃ l ≤ k, cachedRun probe i k = rowsFrom probe i l ∧ (∀ j < l, (probe (i + j)).isSome) ∧
      (l < k → probe (i + l) = none) := by
  induction k generalizing i with
  | zero => exact ⟨0, le_rfl, rfl, by simp, by simp⟩
  | succ k ih =>
    cases hprobe : probe i with
    | none =>
      exact ⟨0, by omega, by simp [cachedRun, hprobe, rowsFrom], by simp, by simpa using hprobe⟩
    | some row =>
      obtain ⟨l, hl, heq, hcached, hstop⟩ := ih (i + 1)
      refine ⟨l + 1, by omega, ?_, ?_, ?_⟩
      · simp [cachedRun, hprobe, rowsFrom_succ, heq]
      · intro j hj
        cases j with
        | zero => simp [hprobe]
        | succ j =>
          have hnext := hcached j (by omega)
          rwa [Nat.add_assoc, Nat.add_comm 1] at hnext
      · intro hlt
        have hnext := hstop (by omega)
        rwa [Nat.add_assoc, Nat.add_comm 1] at hnext

theorem searchDown_succ {probe : ℕ → Option (Row n)} (hfirst : ¬ i < first)
    (hpassed : probe i = none ∨ skip i) :
    searchDown probe skip first (i + 1) = searchDown probe skip first i := by
  rw [searchDown, if_neg hfirst]
  cases hprobe : probe i with
  | none => rfl
  | some row => simp [hpassed.resolve_left (by simp [hprobe])]

theorem searchDown_eq_none_iff {probe : ℕ → Option (Row n)} : searchDown probe skip first k = none ↔
      ∀ j, first ≤ j → j < k → probe j = none ∨ skip j := by
  induction k with
  | zero => simp [searchDown]
  | succ i ih =>
    by_cases hfirst : i < first
    · simp only [searchDown, if_pos hfirst, true_iff]
      intro j hj hlt
      omega
    · have hstep : (∀ j, first ≤ j → j < i + 1 → probe j = none ∨ skip j) ↔
          (probe i = none ∨ skip i) ∧ ∀ j, first ≤ j → j < i → probe j = none ∨ skip j := by
        constructor
        · intro h
          exact ⟨h i (by omega) (by omega), fun j hj hlt => h j hj (by omega)⟩
        · rintro ⟨hi, h⟩ j hj hlt
          rcases Nat.lt_succ_iff_lt_or_eq.mp hlt with hlt | rfl
          · exact h j hj hlt
          · exact hi
      rw [hstep, searchDown, if_neg hfirst]
      cases hprobe : probe i with
      | none => simp [ih]
      | some row => cases hskip : skip i <;> simp [ih]

/-- The search finds the highest index that is cached and not skipped. -/
theorem searchDown_eq_some {probe : ℕ → Option (Row n)}
    (h : searchDown probe skip first k = some (i, row)) :
    first ≤ i ∧ i < k ∧ probe i = some row ∧ skip i = false ∧
      ∀ j, i < j → j < k → probe j = none ∨ skip j := by
  induction k with
  | zero => simp [searchDown] at h
  | succ m ih =>
    have hfirst : ¬ m < first := by
      intro hlt
      simp [searchDown, hlt] at h
    by_cases hpassed : probe m = none ∨ skip m
    · rw [searchDown_succ hfirst hpassed] at h
      obtain ⟨hi, hlt, hrow, hskip, hrest⟩ := ih h
      refine ⟨hi, by omega, hrow, hskip, fun j hj hjm => ?_⟩
      rcases Nat.lt_succ_iff_lt_or_eq.mp hjm with hjm | rfl
      · exact hrest j hj hjm
      · exact hpassed
    · obtain ⟨hsome, hskip⟩ := not_or.mp hpassed
      obtain ⟨found, hprobe⟩ := Option.ne_none_iff_exists'.mp hsome
      rw [Bool.not_eq_true] at hskip
      simp only [searchDown, if_neg hfirst, hprobe, hskip, Bool.false_eq_true, if_false,
        Option.some.injEq, Prod.mk.injEq] at h
      obtain ⟨rfl, rfl⟩ := h
      exact ⟨by omega, by omega, hprobe, hskip, fun j hj hjm => by omega⟩

/-- Of the cached states the last one is taken. -/
theorem lastState_spec (skip : ℕ → Bool) (bound : ℕ) (nullRow : Row n) (rowIdx : ℕ → ℕ)
    (tokens : ℕ) :
    ∃ k, IsGreatest {k | k ≤ bound ∧ (0 < k → (probe (k - 1)).isSome ∧ skip (k - 1) = false)} k ∧
      lastState probe skip bound nullRow rowIdx tokens = (if k = 0 then []
          else List.replicate (rowIdx (k - 1)) nullRow ++ [(probe (k - 1)).getD []],
        k * tokens) := by
  unfold lastState
  cases hsearch : searchDown probe skip 0 bound with
  | none =>
    refine ⟨0, ⟨⟨by omega, by simp⟩, ?_⟩, by simp⟩
    rintro k ⟨hk, hstate⟩
    by_contra hpos
    obtain ⟨hsome, hkeep⟩ := hstate (by omega)
    rcases searchDown_eq_none_iff.mp hsearch (k - 1) (by omega) (by omega) with hmiss | hskip
    · simp [hmiss] at hsome
    · simp [hskip] at hkeep
  | some found =>
    obtain ⟨i, row⟩ := found
    obtain ⟨-, hlt, hrow, hkept, habove⟩ := searchDown_eq_some hsearch
    refine ⟨i + 1, ⟨⟨by omega, fun _ => ⟨by simp [hrow], hkept⟩⟩, ?_⟩, by simp [hrow]⟩
    rintro k ⟨hk, hstate⟩
    by_contra hgt
    obtain ⟨hsome, hkeep⟩ := hstate (by omega)
    rcases habove (k - 1) (by omega) (by omega) with hmiss | hskip
    · simp [hmiss] at hsome
    · simp [hskip] at hkeep

/-! ### The sliding-window loop -/

/-- A run of cached blocks may end before index `e`. -/
def EndAligned (blockSize alignmentTokens : ℕ) (dropEagleBlock : Bool) (e : ℕ) : Prop :=
  blockSize = alignmentTokens ∨
    (if dropEagleBlock then e - 1 else e) * blockSize % alignmentTokens = 0

/-- The window that ends before index `e` is cached, as far as it reaches. A hit
needs one block even where the window itself needs none. -/
def WindowCached (probe : ℕ → Option (Row n)) (need e : ℕ) : Prop :=
  ∀ j < e, e ≤ j + max need 1 → (probe j).isSome

def windowRows (probe : ℕ → Option (Row n)) (nullRow : Row n) (need e : ℕ) : List (Row n) :=
  (List.range e).map fun j => if e ≤ j + max need 1 then (probe j).getD [] else nullRow

/-- What is known when the loop has come down to index `i` with a run of `c`
blocks. -/
structure SlidingInv (probe : ℕ → Option (Row n)) (nullRow : Row n) (need : ℕ) (ends : ℕ → Prop)
    (i : ℕ) (computed : List (Row n)) (c : ℕ) : Prop where
  fits : i + c ≤ computed.length
  null : ∀ j < i, computed[j]? = some nullRow
  run : ∀ j, i ≤ j → j < i + c → (probe j).isSome ∧ computed[j]? = probe j
  ends : 0 < c → ends (i + c)
  short : c < max need 1

/-- The outcome of the loop: the greatest index before which a window ends. -/
structure SlidingOutcome (probe : ℕ → Option (Row n)) (nullRow : Row n) (need : ℕ)
    (ends : ℕ → Prop) (bound : ℕ) (computed : List (Row n)) (c : ℕ) (found : Bool) (e : ℕ) :
    Prop where
  le : e ≤ bound
  window : 0 < e → ends e ∧ WindowCached probe need e
  greatest : ∀ e', 0 < e' → e' ≤ bound → ends e' → WindowCached probe need e' → e' ≤ e
  found_iff : found = true ↔ max need 1 ≤ e
  rows : (if found then computed else computed.take c) = windowRows probe nullRow need e

variable {probe : ℕ → Option (Row n)} {nullRow : Row n} {need blockSize alignmentTokens : ℕ}
  {drop : Bool}

/-- No window ends between the two bounds. -/
theorem SlidingOutcome.widen {bound bound' e : ℕ}
    {found : Bool} (h : SlidingOutcome probe nullRow need ends bound computed c found e)
    (hle : bound ≤ bound')
    (hnone : ∀ e', bound < e' → e' ≤ bound' → ends e' → ¬ WindowCached probe need e') :
    SlidingOutcome probe nullRow need ends bound' computed c found e where
  le := h.le.trans hle
  window := h.window
  greatest := by
    intro e' hpos he' hends hwindow
    by_cases hbound : e' ≤ bound
    · exact h.greatest e' hpos hbound hends hwindow
    · exact absurd hwindow (hnone e' (by omega) he' hends)
  found_iff := h.found_iff
  rows := h.rows

section
variable (h : SlidingInv probe nullRow need ends (i + 1) computed c)
include h

theorem SlidingInv.reset : SlidingInv probe nullRow need ends i computed 0 where
  fits := by
    have := h.fits
    omega
  null := fun j hj => h.null j (by omega)
  run := fun j hj hlt => by omega
  ends := fun hpos => by omega
  short := by omega

theorem getElem?_set_run (hprobe : probe i = some row) {j : ℕ} (hj : j < i + (c + 1)) :
    (computed.set i row)[j]? = if i ≤ j then probe j else some nullRow := by
  have hfits := h.fits
  rcases lt_trichotomy j i with hlt | rfl | hgt
  · rw [getElem?_set_ne (by omega), h.null j (by omega), if_neg (by omega)]
  · rw [getElem?_set_self (by omega), if_pos le_rfl, hprobe]
  · rw [getElem?_set_ne (by omega), (h.run j (by omega) (by omega)).2, if_pos (by omega)]

theorem SlidingInv.cached (hprobe : probe i = some row) {j : ℕ} (hj : i ≤ j)
    (hlt : j < i + (c + 1)) : (probe j).isSome := by
  rcases hj.eq_or_lt with rfl | hgt
  · simp [hprobe]
  · exact (h.run j (by omega) (by omega)).1

theorem SlidingInv.ends_succ (hends : c = 0 → ends (i + 1)) : ends (i + (c + 1)) := by
  rcases Nat.eq_zero_or_pos c with rfl | hc
  · exact hends rfl
  · have := h.ends hc
    rwa [Nat.add_assoc, Nat.add_comm 1] at this

/-- A cached block in front extends the run. -/
theorem SlidingInv.extend (hprobe : probe i = some row) (hends : c = 0 → ends (i + 1))
    (hneed : c + 1 < need) : SlidingInv probe nullRow need ends i (computed.set i row) (c + 1) where
  fits := by
    have := h.fits
    simp only [length_set]
    omega
  null := by
    intro j hj
    rw [getElem?_set_run h hprobe (by omega), if_neg (by omega)]
  run := by
    intro j hj hlt
    exact ⟨h.cached hprobe hj hlt, by rw [getElem?_set_run h hprobe hlt, if_pos hj]⟩
  ends := fun _ => h.ends_succ hends
  short := by omega
end

/-- A run as long as the window ends the search. -/
theorem SlidingInv.found
    (h : SlidingInv probe nullRow need ends (i + 1) computed c) (hprobe : probe i = some row)
    (hends : c = 0 → ends (i + 1)) (hneed : need ≤ c + 1) :
    SlidingOutcome probe nullRow need ends (i + (c + 1)) ((computed.set i row).take (i + (c + 1)))
      (c + 1) true (i + (c + 1)) where
  le := le_rfl
  window := by
    intro _
    have hshort := h.short
    exact ⟨h.ends_succ hends, fun j hj hwin => h.cached hprobe (by omega) hj⟩
  greatest := fun e' _ hle _ _ => hle
  found_iff := by
    have hshort := h.short
    simp only [true_iff]
    omega
  rows := by
    have hshort := h.short
    have hfits := h.fits
    rw [if_pos rfl]
    apply ext_getElem?
    intro j
    by_cases hj : j < i + (c + 1)
    · rw [getElem?_take_of_lt hj, getElem?_set_run h hprobe hj]
      by_cases hij : i ≤ j
      · obtain ⟨found, hfound⟩ := Option.isSome_iff_exists.mp (h.cached hprobe hij hj)
        have hwin : i + (c + 1) ≤ j + max need 1 := by omega
        simp [windowRows, hj, hij, hfound, hwin]
      · have hwin : ¬ i + (c + 1) ≤ j + max need 1 := by omega
        simp [windowRows, hj, hij, hwin]
    · rw [getElem?_eq_none (by simp; omega),
        getElem?_eq_none (by simp [windowRows]; omega)]

/-- The loop ends at the greatest index before which a window ends. -/
theorem slidingLoop_spec
    (h : SlidingInv probe nullRow need (EndAligned blockSize alignmentTokens drop) i computed c) :
    ∃ e, SlidingOutcome probe nullRow need (EndAligned blockSize alignmentTokens drop) (i + c)
      (slidingLoop probe need blockSize alignmentTokens drop i computed c).1
      (slidingLoop probe need blockSize alignmentTokens drop i computed c).2.1
      (slidingLoop probe need blockSize alignmentTokens drop i computed c).2.2 e := by
  induction i generalizing computed c with
  | zero =>
    refine ⟨c, by omega, ?_, fun e' _ hle _ _ => by omega, ?_, ?_⟩
    · intro hc
      refine ⟨by simpa using h.ends hc, fun j hj _ => (h.run j (by omega) (by omega)).1⟩
    · have := h.short
      simp only [slidingLoop, Bool.false_eq_true, false_iff]
      omega
    · simp only [slidingLoop, Bool.false_eq_true, if_false]
      apply ext_getElem?
      intro j
      have hshort := h.short
      have hfits := h.fits
      by_cases hj : j < c
      · obtain ⟨hsome, hrow⟩ := h.run j (by omega) (by omega)
        obtain ⟨row, hprobe⟩ := Option.isSome_iff_exists.mp hsome
        rw [getElem?_take_of_lt hj, hrow, hprobe]
        simp [windowRows, hj, hprobe]
        omega
      · rw [getElem?_eq_none (by simp; omega), getElem?_eq_none (by simp [windowRows]; omega)]
  | succ i ih =>
    cases hprobe : probe i with
    | none =>
      obtain ⟨e, he⟩ := ih h.reset
      refine ⟨e, ?_⟩
      simp only [slidingLoop, hprobe]
      refine he.widen (by omega) fun e' hlt hle _ hwindow => ?_
      have hshort := h.short
      have hcached := hwindow i (by omega) (by omega)
      simp [hprobe] at hcached
    | some row =>
      by_cases hskip : c = 0 ∧ blockSize ≠ alignmentTokens ∧
          (if drop then i else i + 1) * blockSize % alignmentTokens ≠ 0
      · obtain ⟨e, he⟩ := ih h.reset
        refine ⟨e, ?_⟩
        obtain ⟨rfl, hne, hmod⟩ := hskip
        simp only [slidingLoop, hprobe, hne, hmod, ne_eq, not_false_eq_true, and_self, if_true]
        refine he.widen (by omega) fun e' hlt hle hends _ => ?_
        obtain rfl : e' = i + 1 := by omega
        rcases hends with heq | halign
        · exact hne heq
        · exact hmod halign
      · have hends : c = 0 → EndAligned blockSize alignmentTokens drop (i + 1) := by
          intro hc
          by_contra hnot
          simp only [EndAligned, not_or] at hnot
          exact hskip ⟨hc, hnot.1, hnot.2⟩
        by_cases hneed : need ≤ c + 1
        · refine ⟨i + (c + 1), ?_⟩
          simp only [slidingLoop, hprobe, hskip, hneed, if_true, if_false]
          rw [show i + 1 + c = i + (c + 1) by omega]
          exact h.found hprobe hends hneed
        · obtain ⟨e, he⟩ := ih (h.extend hprobe hends (by omega))
          refine ⟨e, ?_⟩
          simp only [slidingLoop, hprobe, hskip, hneed, if_false]
          rw [show i + 1 + c = i + (c + 1) by omega]
          exact he

/-! ### Alignment -/

section
variable (hb : 0 < b)
include hb

theorem mul_mod_eq_zero_iff (k : ℕ) : k * b % (u * b) = 0 ↔ u ∣ k := by
  rw [← Nat.dvd_iff_mod_eq_zero, Nat.mul_dvd_mul_iff_right hb]

/-- In blocks: a run may end at a multiple of the alignment, one block later with EAGLE. -/
theorem endAligned_iff (drop : Bool) (e : ℕ) :
    EndAligned b (u * b) drop e ↔ u ∣ if drop then e - 1 else e := by
  unfold EndAligned
  rw [mul_mod_eq_zero_iff hb]
  constructor
  · rintro (heq | hdvd)
    · have hu : u = 1 := Nat.eq_of_mul_eq_mul_right hb (by omega)
      simp [hu]
    · exact hdvd
  · exact Or.inr

/-- Popping to an aligned position rounds down to a multiple. -/
theorem alignedCount_eq (k : ℕ) : alignedCount b (u * b) k = k / u * u := by
  induction k with
  | zero => simp [alignedCount]
  | succ k ih =>
    simp only [alignedCount, ne_eq, mul_mod_eq_zero_iff hb]
    split_ifs with hpop
    · have hdiv : (k + 1) / u = k / u := by
        rw [Nat.succ_div, if_neg hpop.2, Nat.add_zero]
      rw [ih, hdiv]
    · have hdvd : u ∣ k + 1 := by
        by_contra hnot
        have hone : b = u * b := by tauto
        have hu1 : u = 1 := Nat.eq_of_mul_eq_mul_right hb (by omega)
        exact hnot (by simp [hu1])
      exact (Nat.div_mul_cancel hdvd).symm

variable {e : ℕ}

/-- A hit without EAGLE keeps every block of its window. -/
theorem slidingCount_keep (he : u ∣ e) (found : Bool) :
    slidingCount b (u * b) false e found = e := by
  cases found <;> simp [slidingCount, alignedCount_eq hb, Nat.div_mul_cancel he]

/-- A full window loses the block for EAGLE and nothing else. -/
theorem slidingCount_drop_found (hpos : 0 < e) (he : u ∣ e - 1) :
    slidingCount b (u * b) true e true = e - 1 := by
  have hne : e ≠ 0 := by omega
  simp [slidingCount, alignedCount_eq hb, Nat.div_mul_cancel he, hne]

/-- A run shorter than the window is aligned before the block for EAGLE is
popped, which costs an alignment unit more. -/
theorem slidingCount_drop_short (hu : 0 < u) (he : u ∣ e - 1) :
    slidingCount b (u * b) true e false = if u = 1 then e - 1 else e - 1 - u := by
  simp only [slidingCount, alignedCount_eq hb, Bool.false_eq_true, if_false, true_and]
  split_ifs with hne hone hone
  · subst hone
    simp
  · obtain ⟨q, hq⟩ := he
    have hepos : e ≠ 0 := by
      rintro rfl
      simp at hne
    have hfloor : e / u = q := by
      obtain rfl : e = u * q + 1 := by omega
      rw [Nat.mul_add_div hu, Nat.div_eq_of_lt (by omega), Nat.add_zero]
    rw [hfloor] at hne ⊢
    have hqpos : q ≠ 0 := by
      rintro rfl
      simp at hne
    obtain ⟨p, rfl⟩ := Nat.exists_eq_succ_of_ne_zero hqpos
    have hlast : (p.succ * u - 1) / u = p := by
      rw [Nat.succ_mul, Nat.add_sub_assoc (by omega), Nat.mul_comm, Nat.mul_add_div hu,
        Nat.div_eq_of_lt (by omega), Nat.add_zero]
    rw [hlast, hq, Nat.mul_succ, Nat.add_sub_cancel, Nat.mul_comm]
  · subst hone
    simp only [Nat.div_one, Nat.mul_one, not_not] at hne
    omega
  · have hzero : e / u = 0 := by
      rcases Nat.mul_eq_zero.mp (not_not.mp hne) with h | h
      · exact h
      · omega
    have hlt : e < u := (Nat.div_eq_zero_iff_lt hu).mp hzero
    omega
end

theorem slidingCount_le {a : ℕ} (drop : Bool) (e : ℕ) (found : Bool) :
    slidingCount b a drop e found ≤ e := by
  have hle : ∀ k, alignedCount b a k ≤ k := by
    intro k
    induction k with
    | zero => exact le_rfl
    | succ k ih =>
      simp only [alignedCount]
      split_ifs <;> omega
  have hkept := hle (e - 1)
  have haligned := hle e
  have htwice := hle (alignedCount b a e - 1)
  simp only [slidingCount]
  split_ifs <;> omega

/-! ### The sliding-window lookup -/

/-- The sliding-window lookup ends its hit before the greatest index at which a
window ends. -/
theorem findSlidingWindow_spec (window : ℕ)
    (groupIds : List GroupId) {blockHashes hashes : List BlockHash} {maxLength : ℕ} (drop : Bool)
    (halign : alignmentTokens % blockSize = 0)
    (hresolve : resolveBlockHashes blockHashes pool.hashBlockSize blockSize false = .ok hashes)
    (hcovered : maxLength / blockSize ≤ hashes.length) :
    ∃ e ≤ maxLength / blockSize, (0 < e → EndAligned blockSize alignmentTokens drop e ∧
        WindowCached (probeAt pool groupIds hashes)
          (contiguousBlocksForHit window blockSize drop) e) ∧
      (∀ e', 0 < e' → e' ≤ maxLength / blockSize → EndAligned blockSize alignmentTokens drop e' →
        WindowCached (probeAt pool groupIds hashes)
          (contiguousBlocksForHit window blockSize drop) e' → e' ≤ e) ∧
      findSlidingWindow pool window blockSize groupIds blockHashes maxLength drop alignmentTokens =
        .ok ((windowRows (probeAt pool groupIds hashes) (groupIds.map fun _ => pool.nullBlock)
            (contiguousBlocksForHit window blockSize drop) e).take
              (slidingCount blockSize alignmentTokens drop e
                (decide (max (contiguousBlocksForHit window blockSize drop) 1 ≤ e))),
          slidingCount blockSize alignmentTokens drop e
            (decide (max (contiguousBlocksForHit window blockSize drop) 1 ≤ e)) * blockSize) := by
  set need := contiguousBlocksForHit window blockSize drop
  set probe := probeAt pool groupIds hashes
  set nullRow := groupIds.map fun _ => pool.nullBlock
  have hinv : SlidingInv probe nullRow need (EndAligned blockSize alignmentTokens drop)
      (maxLength / blockSize) (List.replicate (maxLength / blockSize) nullRow) 0 :=
    ⟨by simp, fun j hj => by simp [hj], fun j hj hlt => by omega, fun h => by omega, by omega⟩
  obtain ⟨e, he⟩ := slidingLoop_spec hinv
  refine ⟨e, he.le, he.window, fun e' hpos hle => he.greatest e' hpos hle, ?_⟩
  have hfound : (slidingLoop probe need blockSize alignmentTokens drop (maxLength / blockSize)
      (List.replicate (maxLength / blockSize) nullRow) 0).2.2 = decide (max need 1 ≤ e) := by
    rw [Bool.eq_iff_iff, he.found_iff, decide_eq_true_iff]
  have hrows := he.rows
  unfold findSlidingWindow
  simp only [halign, ne_eq, not_true_eq_false, if_false, hresolve]
  change (if hashes.length < maxLength / blockSize then _ else _) = _
  rw [if_neg (Nat.not_lt.mpr hcovered)]
  generalize slidingLoop probe need blockSize alignmentTokens drop (maxLength / blockSize)
    (List.replicate (maxLength / blockSize) nullRow) 0 = out at hfound hrows ⊢
  obtain ⟨computed, c, found⟩ := out
  dsimp only at hfound hrows ⊢
  rw [hrows, hfound]
  have hlength : (windowRows probe nullRow need e).length = e := by simp [windowRows]
  rw [hlength]
  refine congrArg Except.ok (Prod.ext rfl ?_)
  simp only [length_take, hlength, Nat.min_eq_left (slidingCount_le drop e _)]

/-! ### Hashes at block granularity -/

theorem mergedHashes_eq_map (hk : 0 < k) (hashes : List BlockHash) : mergedHashes hashes k =
      (List.range (hashes.length / k)).map fun j => (hashes[(j + 1) * k - 1]?).getD [] := by
  unfold mergedHashes
  rw [← filterMap_eq_map]
  refine filterMap_congr fun j hj => ?_
  have hle := (Nat.le_div_iff_mul_le hk).mp (Nat.succ_le_of_lt (mem_range.mp hj))
  have hpos : 0 < (j + 1) * k := Nat.mul_pos (by omega) hk
  have hin : (j + 1) * k - 1 < hashes.length := by
    simp only [Nat.succ_eq_add_one] at hle
    omega
  simp [getElem?_eq_getElem hin]

@[simp]
theorem length_mergedHashes (hk : 0 < k) (hashes : List BlockHash) :
    (mergedHashes hashes k).length = hashes.length / k := by
  simp [mergedHashes_eq_map hk]

theorem getElem?_mergedHashes (hk : 0 < k) (hashes : List BlockHash) (i : ℕ) :
    (mergedHashes hashes k)[i]? = hashes[(i + 1) * k - 1]? := by
  have hpos : 0 < (i + 1) * k := Nat.mul_pos (by omega) hk
  by_cases hi : i < hashes.length / k
  · have hle := (Nat.le_div_iff_mul_le hk).mp (Nat.succ_le_of_lt hi)
    have hin : (i + 1) * k - 1 < hashes.length := by
      simp only [Nat.succ_eq_add_one] at hle
      omega
    simp [mergedHashes_eq_map hk, hi, getElem?_eq_getElem hin]
  · have hlt := (Nat.div_lt_iff_lt_mul hk).mp (Nat.lt_succ_of_le (Nat.le_of_not_lt hi))
    have hout : hashes.length ≤ (i + 1) * k - 1 := by
      simp only [Nat.succ_eq_add_one] at hlt
      omega
    rw [getElem?_eq_none hout, getElem?_eq_none (by rw [length_mergedHashes hk]; omega)]

/-- The blocks of a request in units of the hash block size: block `j` is found
under the hash of its last unit. -/
def blockProbe (unit : ℕ → Option (Row n)) (scale j : ℕ) : Option (Row n) :=
  unit ((j + 1) * scale - 1)

theorem probeAt_isSome_lt {groupIds : List GroupId} {hashes : List BlockHash}
    (h : (probeAt pool groupIds hashes i).isSome) : i < hashes.length := by
  by_contra hout
  simp [probeAt, getElem?_eq_none (Nat.le_of_not_lt hout)] at h

/-- Looking up merged hashes is looking up the last hash of each block. -/
theorem probeAt_mergedHashes (hk : 0 < k) (pool : BlockPool n) (groupIds : List GroupId)
    (hashes : List BlockHash) :
    probeAt pool groupIds (mergedHashes hashes k) =
      blockProbe (probeAt pool groupIds hashes) k := by
  funext i
  simp [probeAt, blockProbe, getElem?_mergedHashes hk]

theorem resolveBlockHashes_block {h s : ℕ} (hh : 0 < h) (hs : 0 < s) (pool : BlockPool n)
    (groupIds : List GroupId) (blockHashes : List BlockHash) :
    ∃ hashes, resolveBlockHashes blockHashes h (s * h) false = .ok hashes ∧
      probeAt pool groupIds hashes = blockProbe (probeAt pool groupIds blockHashes) s ∧
      hashes.length = blockHashes.length / s := by
  by_cases hone : s = 1
  · subst hone
    refine ⟨blockHashes, by simp [resolveBlockHashes], ?_, by simp⟩
    funext i
    simp [blockProbe]
  · have hne : s * h ≠ h := by
      intro heq
      exact hone (Nat.eq_of_mul_eq_mul_right hh (by omega))
    refine ⟨mergedHashes blockHashes s, ?_, probeAt_mergedHashes hs pool groupIds blockHashes,
      length_mergedHashes hs blockHashes⟩
    simp [resolveBlockHashes, hne, Nat.mul_div_cancel _ hh]

/-! ### The full-attention lookup -/

/-- The first `a` units are cached: block by block, and up to the last unit if
they end inside a block. -/
def FullCached (unit : ℕ → Option (Row n)) (scale a : ℕ) : Prop :=
  (∀ j < a / scale, (blockProbe unit scale j).isSome) ∧ (a % scale ≠ 0 → (unit (a - 1)).isSome)

def fullRows (unit : ℕ → Option (Row n)) (scale a : ℕ) : List (Row n) :=
  rowsFrom (blockProbe unit scale) 0 (a / scale) ++
    if a % scale ≠ 0 then [(unit (a - 1)).getD []] else []

section
variable {unit : ℕ → Option (Row n)} {scale : ℕ}

/-- The run from the left is the longest one that is cached throughout. -/
theorem cachedRun_greatest (unit : ℕ → Option (Row n)) (scale bound : ℕ) :
    ∃ l ≤ bound / scale, cachedRun (blockProbe unit scale) 0 (bound / scale) =
        rowsFrom (blockProbe unit scale) 0 l ∧
      (∀ j < l, (blockProbe unit scale j).isSome) ∧
      ∀ a ≤ bound, FullCached unit scale a → a / scale ≤ l := by
  obtain ⟨l, hl, hrun, hcached, hstop⟩ := cachedRun_spec (blockProbe unit scale) 0 (bound / scale)
  simp only [Nat.zero_add] at hcached hstop
  refine ⟨l, hl, hrun, hcached, fun a ha hfull => ?_⟩
  by_contra hlt
  have hbound : a / scale ≤ bound / scale := Nat.div_le_div_right ha
  have hmiss := hstop (by omega)
  have hhit := hfull.1 l (by omega)
  simp [hmiss] at hhit

theorem div_block (maxLength h scale : ℕ) : maxLength / (scale * h) = maxLength / h / scale := by
  rw [Nat.mul_comm, Nat.div_div_eq_div_mul]

theorem fullCached_mul (hs : 0 < scale) {l : ℕ} :
    FullCached unit scale (l * scale) ↔ ∀ j < l, (blockProbe unit scale j).isSome := by
  simp [FullCached, Nat.mul_div_cancel _ hs]

/-- The last unit of block `j`. -/
theorem last_div (hs : 0 < scale) (j : ℕ) : ((j + 1) * scale - 1) / scale = j := by
  rw [Nat.add_one_mul, Nat.add_sub_assoc hs, Nat.mul_comm, Nat.mul_add_div hs,
    Nat.div_eq_of_lt (by omega), Nat.add_zero]

theorem fullRows_mul (hs : 0 < scale) (l : ℕ) :
    fullRows unit scale (l * scale) = rowsFrom (blockProbe unit scale) 0 l := by
  simp [fullRows, Nat.mul_div_cancel _ hs]

/-- Probing the first block that is not full finds the longest hit. -/
theorem extendPartial_greatest {h bound numHashes : ℕ} (hh : 0 < h) (hs : 1 < scale)
    (hunit : ∀ i, (unit i).isSome → i < numHashes) {maxLength : ℕ}
    (hbound : bound = maxLength / h) :
    ∃ a, IsGreatest {a | a ≤ bound ∧ FullCached unit scale a} a ∧
      extendPartial unit (scale * h) h maxLength numHashes
        (cachedRun (blockProbe unit scale) 0 (bound / scale)) = (fullRows unit scale a, a * h) := by
  have hspos : 0 < scale := by omega
  obtain ⟨l, hl, hrun, hcached, hgreatest⟩ := cachedRun_greatest unit scale bound
  have hlbound : l * scale ≤ bound := (Nat.le_div_iff_mul_le hspos).mp hl
  -- a longer hit ends inside block `l`, at one of the probed units
  have hinside : ∀ a ≤ bound, FullCached unit scale a → l * scale < a →
      (unit (a - 1)).isSome ∧ l * scale ≤ a - 1 ∧
        a - 1 < min (l * scale + scale - 1) (min (maxLength / h) numHashes) := by
    intro a ha hfull hlt
    have hle := hgreatest a ha hfull
    have hdiv : a / scale = l := by
      have := (Nat.le_div_iff_mul_le hspos).mpr (le_of_lt hlt)
      omega
    have hdecomp := Nat.div_add_mod a scale
    have hmod : a % scale < scale := Nat.mod_lt _ hspos
    rw [hdiv, Nat.mul_comm] at hdecomp
    have hsome := hfull.2 (by omega)
    have hin := hunit _ hsome
    exact ⟨hsome, by omega, by omega⟩
  rw [hrun]
  simp only [extendPartial, length_rowsFrom, Nat.mul_div_cancel _ hh]
  cases hsearch : searchDown unit (fun _ => false) (l * scale)
      (min (l * scale + scale - 1) (min (maxLength / h) numHashes)) with
  | none =>
    refine ⟨l * scale, ⟨⟨hlbound, (fullCached_mul hspos).mpr hcached⟩, ?_⟩, ?_⟩
    · rintro a ⟨ha, hfull⟩
      by_contra hlt
      obtain ⟨hsome, hlow, hhigh⟩ := hinside a ha hfull (by omega)
      rcases searchDown_eq_none_iff.mp hsearch (a - 1) hlow hhigh with hmiss | hskip
      · simp [hmiss] at hsome
      · simp at hskip
    · rw [fullRows_mul hspos, Nat.mul_assoc]
  | some found =>
    obtain ⟨i, row⟩ := found
    obtain ⟨hlow, hhigh, hrow, -, habove⟩ := searchDown_eq_some hsearch
    have hdiv : (i + 1) / scale = l := by
      apply Nat.div_eq_of_lt_le
      · omega
      · rw [Nat.succ_mul]
        omega
    have hmod : (i + 1) % scale ≠ 0 := by
      intro hzero
      have := Nat.div_add_mod (i + 1) scale
      rw [hdiv, hzero, Nat.mul_comm] at this
      omega
    refine ⟨i + 1, ⟨⟨by omega, ?_⟩, ?_⟩, ?_⟩
    · refine ⟨by rwa [hdiv], fun _ => by simp [hrow]⟩
    · rintro a ⟨ha, hfull⟩
      by_contra hlt
      obtain ⟨hsome, -, hhigh'⟩ := hinside a ha hfull (by omega)
      rcases habove (a - 1) (by omega) hhigh' with hmiss | hskip
      · simp [hmiss] at hsome
      · simp at hskip
    · simp [fullRows, hdiv, hmod, hrow]

/-- What is left of a hit of `a` units: without the unit dropped for EAGLE, and
aligned. -/
def fullHit (align scale : ℕ) (drop : Bool) (a : ℕ) : ℕ :=
  (if drop ∧ 0 < a then a - min align scale else a) / align * align

theorem trimHit_mul {align h : ℕ} (hh : 0 < h) (hs : 0 < scale) (drop : Bool)
    (rows : List (Row n)) (a : ℕ) :
    trimHit (scale * h) (align * h) drop (rows, a * h) =
      (rows.take (cdiv (fullHit align scale drop a) scale), fullHit align scale drop a * h) := by
  have hmin : min (align * h) (scale * h) = min align scale * h := by
    rcases le_total align scale with hle | hle
    · rw [Nat.min_eq_left hle, Nat.min_eq_left (Nat.mul_le_mul_right h hle)]
    · rw [Nat.min_eq_right hle, Nat.min_eq_right (Nat.mul_le_mul_right h hle)]
  have hpos : 0 < a * h ↔ 0 < a := by simp [hh]
  have hkept : (if drop = true ∧ 0 < a * h then a * h - min (align * h) (scale * h) else a * h) =
      (if drop = true ∧ 0 < a then a - min align scale else a) * h := by
    simp only [hpos, hmin]
    split_ifs
    · rw [Nat.sub_mul]
    · rfl
  have hround (k : ℕ) : k * h - k * h % (align * h) = k / align * align * h := by
    rw [Nat.mul_mod_mul_right, ← Nat.sub_mul]
    congr 1
    have := Nat.div_add_mod' k align
    omega
  simp only [trimHit, hkept, hround]
  rw [fullHit, cdiv_mul_mul hh hs]

/-- A lookup is aligned to whole blocks, or to the hash units inside them. -/
def AlignedTo (align scale : ℕ) : Prop :=
  (scale ∣ align ∧ 0 < align) ∨ (align = 1 ∧ 1 < scale)

theorem fineGrained_eq_true_iff {align h : ℕ} (hh : 0 < h) (halign : AlignedTo align scale) :
    fineGrained (scale * h) (align * h) = true ↔ align = 1 ∧ 1 < scale := by
  simp only [fineGrained, decide_eq_true_eq, Nat.mul_lt_mul_right hh]
  constructor
  · rintro ⟨hlt, -⟩
    rcases halign with ⟨hdvd, hpos⟩ | hfine
    · have := Nat.le_of_dvd hpos hdvd
      omega
    · exact hfine
  · rintro ⟨rfl, hlt⟩
    exact ⟨hlt, by simp⟩

theorem fineGrained_of_dvd {align h : ℕ} (hh : 0 < h) (hdvd : scale ∣ align) (hpos : 0 < align) :
    fineGrained (scale * h) (align * h) = false := by
  rw [Bool.eq_false_iff, ne_eq, fineGrained_eq_true_iff hh (.inl ⟨hdvd, hpos⟩)]
  rintro ⟨rfl, hlt⟩
  exact absurd (Nat.le_of_dvd Nat.one_pos hdvd) (by omega)

theorem fine_resolves {h : ℕ} (hh : 0 < h) (hlt : 1 < scale) (blockHashes : List BlockHash) :
    fineGrained (scale * h) (1 * h) = true ∧
      resolveBlockHashes blockHashes h (scale * h) true = .ok blockHashes :=
  ⟨(fineGrained_eq_true_iff hh (.inr ⟨rfl, hlt⟩)).mpr ⟨rfl, hlt⟩, by simp [resolveBlockHashes]⟩

variable {pool : BlockPool n}

/-- The greatest cached number of units, and what is trimmed from it. -/
theorem findFullAttention_spec (groupIds : List GroupId) (blockHashes : List BlockHash)
    {h align : ℕ} (maxLength : ℕ) (hh : 0 < h) (hs : 0 < scale) (hpool : pool.hashBlockSize = h)
    (halign : AlignedTo align scale) (drop : Bool) :
    ∃ a, IsGreatest {a | a ≤ maxLength / h ∧ min align scale ∣ a ∧
        FullCached (probeAt pool groupIds blockHashes) scale a} a ∧
      findFullAttention pool (scale * h) groupIds blockHashes maxLength drop (align * h) =
        .ok ((fullRows (probeAt pool groupIds blockHashes) scale a).take
          (cdiv (fullHit align scale drop a) scale), fullHit align scale drop a * h) := by
  set unit := probeAt pool groupIds blockHashes
  have hbound := div_block maxLength h scale
  rcases halign with ⟨hdvd, hpos⟩ | ⟨rfl, hlt⟩
  · have hcoarse := fineGrained_of_dvd hh hdvd hpos
    obtain ⟨hashes, hresolve, hblocks, -⟩ :=
      resolveBlockHashes_block hh hs pool groupIds blockHashes
    have hprobe : probeAt pool groupIds hashes = blockProbe unit scale := hblocks
    obtain ⟨l, hl, hrun, hcached, hgreatest⟩ := cachedRun_greatest unit scale (maxLength / h)
    have hmin : min align scale = scale := Nat.min_eq_right (Nat.le_of_dvd hpos hdvd)
    refine ⟨l * scale, ⟨⟨(Nat.le_div_iff_mul_le hs).mp hl, ?_, (fullCached_mul hs).mpr hcached⟩,
      ?_⟩, ?_⟩
    · rw [hmin]
      exact Nat.dvd_mul_left _ _
    · rintro a ⟨ha, hstep, hfull⟩
      rw [hmin] at hstep
      rw [← Nat.div_mul_cancel hstep]
      exact Nat.mul_le_mul_right _ (hgreatest a ha hfull)
    · have hscan : scanFull pool (scale * h) groupIds hashes maxLength (align * h) false =
          (fullRows unit scale (l * scale), l * scale * h) := by
        simp [scanFull, hprobe, hbound, hrun, fullRows_mul hs, Nat.mul_assoc]
      simp only [findFullAttention, hcoarse, hpool, hresolve, bind, Except.bind, pure, Except.pure,
        hscan, trimHit_mul hh hs]
  · obtain ⟨hfine, hresolve⟩ := fine_resolves hh hlt blockHashes
    obtain ⟨a, hgreatest, hextend⟩ := extendPartial_greatest hh hlt
      (fun _ => probeAt_isSome_lt) (rfl : maxLength / h = maxLength / h)
    have hmin : min 1 scale = 1 := Nat.min_eq_left hs
    have hscan : scanFull pool (scale * h) groupIds blockHashes maxLength (1 * h) true =
        (fullRows unit scale a, a * h) := by
      rw [← hextend]
      simp [scanFull, hbound, Nat.mul_div_cancel _ hh, probeAt_mergedHashes hs]
    refine ⟨a, by simpa [hmin] using hgreatest, ?_⟩
    simp only [findFullAttention, hfine, hpool, hresolve, bind, Except.bind, pure, Except.pure,
      hscan, trimHit_mul hh hs]
end

/-! ### The Mamba lookup -/

def StateCached (unit : ℕ → Option (Row n)) (a : ℕ) : Prop := 0 < a → (unit (a - 1)).isSome

def stateRows (unit : ℕ → Option (Row n)) (nullRow : Row n) (scale a : ℕ) : List (Row n) :=
  if a = 0 then [] else List.replicate ((a - 1) / scale) nullRow ++ [(unit (a - 1)).getD []]

section
variable {pool : BlockPool n} {scale : ℕ}

/-- The Mamba lookup finds the last cached state on an aligned position. -/
theorem findMamba_spec (groupIds : List GroupId) (blockHashes : List BlockHash) {h align : ℕ}
    (maxLength : ℕ) (hh : 0 < h) (hs : 0 < scale)
    (hpool : pool.hashBlockSize = h) (halign : AlignedTo align scale)
    (hcovered : fineGrained (scale * h) (align * h) = false →
      maxLength / h / scale ≤ blockHashes.length / scale) :
    ∃ a, IsGreatest {a | a ≤ maxLength / h ∧ align ∣ a ∧
        StateCached (probeAt pool groupIds blockHashes) a} a ∧
      findMamba pool (scale * h) groupIds blockHashes maxLength (align * h) =
        .ok (stateRows (probeAt pool groupIds blockHashes) (groupIds.map fun _ => pool.nullBlock)
          scale a, a * h) := by
  set unit := probeAt pool groupIds blockHashes
  set nullRow := groupIds.map fun _ => pool.nullBlock
  rcases halign with ⟨hdvd, hpos⟩ | ⟨rfl, hlt⟩
  · have hcoarse := fineGrained_of_dvd hh hdvd hpos
    have hbound := div_block maxLength h scale
    obtain ⟨hashes, hresolve, hblocks, hlength⟩ :=
      resolveBlockHashes_block hh hs pool groupIds blockHashes
    have hprobe : probeAt pool groupIds hashes = blockProbe unit scale := hblocks
    have hlen : ¬ hashes.length < maxLength / h / scale := by
      rw [hlength]
      exact Nat.not_lt.mpr (hcovered hcoarse)
    have hskip (i : ℕ) :
        decide (scale * h ≠ align * h ∧ (i + 1) * (scale * h) % (align * h) ≠ 0) = false ↔
          align ∣ (i + 1) * scale := by
      rw [decide_eq_false_iff_not, ← Nat.mul_assoc, Ne, Ne, mul_mod_eq_zero_iff hh]
      constructor
      · intro hnot
        by_contra hndvd
        refine hnot ⟨fun heq => hndvd ?_, hndvd⟩
        rw [Nat.eq_of_mul_eq_mul_right hh heq]
        exact Nat.dvd_mul_left _ _
      · exact fun hdvd hnot => hnot.2 hdvd
    obtain ⟨k, ⟨⟨hk, hstate⟩, hgreatest⟩, hlast⟩ := lastState_spec (blockProbe unit scale)
      (fun i => decide (scale * h ≠ align * h ∧ (i + 1) * (scale * h) % (align * h) ≠ 0))
      (maxLength / h / scale) nullRow id (scale * h)
    -- block `j` ends after `(j + 1) * scale` units
    have hblock (j : ℕ) : ((blockProbe unit scale j).isSome ∧
        decide (scale * h ≠ align * h ∧ (j + 1) * (scale * h) % (align * h) ≠ 0) = false) ↔
          align ∣ (j + 1) * scale ∧ StateCached unit ((j + 1) * scale) := by
      have hposj : 0 < (j + 1) * scale := Nat.mul_pos (by omega) hs
      rw [hskip, and_comm]
      simp [StateCached, blockProbe, hposj]
    refine ⟨k * scale, ⟨⟨(Nat.le_div_iff_mul_le hs).mp hk, ?_⟩, ?_⟩, ?_⟩
    · cases k with
      | zero => simp [StateCached]
      | succ j => exact (hblock j).mp (hstate (Nat.succ_pos j))
    · rintro a ⟨ha, hal, hcached⟩
      obtain ⟨q, rfl⟩ := dvd_iff_exists_eq_mul_left.mp (hdvd.trans hal)
      refine Nat.mul_le_mul_right _ (hgreatest ⟨(Nat.le_div_iff_mul_le hs).mpr ha, fun hq => ?_⟩)
      obtain ⟨j, rfl⟩ := Nat.exists_eq_succ_of_ne_zero hq.ne'
      exact (hblock j).mpr ⟨hal, hcached⟩
    · have hrows : stateRows unit nullRow scale (k * scale) = if k = 0 then []
          else List.replicate (k - 1) nullRow ++ [(blockProbe unit scale (k - 1)).getD []] := by
        cases k with
        | zero => simp [stateRows]
        | succ j => simp [stateRows, blockProbe, last_div hs j, hs.ne']
      rw [hrows, Nat.mul_assoc]
      simp only [findMamba, hcoarse, hpool, hresolve, bind, Except.bind, pure, Except.pure,
        Bool.false_eq_true, if_false, hprobe, hbound, if_neg hlen]
      exact congrArg Except.ok hlast
  · obtain ⟨hfine, hresolve⟩ := fine_resolves hh hlt blockHashes
    obtain ⟨k, ⟨⟨hk, hstate⟩, hgreatest⟩, hlast⟩ := lastState_spec unit (fun _ => false)
      (min (maxLength / h) blockHashes.length) nullRow (fun fineIdx => fineIdx / scale) (1 * h)
    refine ⟨k, ⟨⟨hk.trans (min_le_left _ _), one_dvd k, fun hpos => (hstate hpos).1⟩, ?_⟩, ?_⟩
    · rintro a ⟨ha, -, hcached⟩
      refine hgreatest ⟨le_min ha ?_, fun hpos => ⟨hcached hpos, rfl⟩⟩
      rcases Nat.eq_zero_or_pos a with rfl | hpos
      · exact Nat.zero_le _
      · have := probeAt_isSome_lt (hcached hpos)
        omega
    · simp only [findMamba, hfine, hpool, hresolve, bind, Except.bind, pure, Except.pure, if_true,
        Nat.mul_div_mul_right _ _ hh, Nat.div_one]
      rw [Nat.one_mul] at hlast ⊢
      exact congrArg Except.ok hlast
end

/-! ### Lookups without EAGLE -/

variable {pool : BlockPool n} (groupIds : List GroupId) {blockHashes : List BlockHash}
  {scale h align maxLength : ℕ}

theorem length_fullRows (unit : ℕ → Option (Row n)) (hs : 0 < scale) (a : ℕ) :
    (fullRows unit scale a).length = cdiv a scale := by
  by_cases hzero : a % scale = 0
  · obtain ⟨l, rfl⟩ := dvd_iff_exists_eq_mul_left.mp (Nat.dvd_of_mod_eq_zero hzero)
    rw [fullRows_mul hs, length_rowsFrom, cdiv_mul_self l hs]
  · simp [fullRows, hzero, cdiv_of_mod_ne_zero hs hzero]

/-- Whole blocks of a cached prefix are cached, and found again. -/
theorem FullCached.floor {unit : ℕ → Option (Row n)} {a : ℕ} (hs : 0 < scale)
    (hfull : FullCached unit scale a) (hdvd : scale ∣ b) (hle : b ≤ a) :
    FullCached unit scale b ∧
      (fullRows unit scale a).take (cdiv b scale) = fullRows unit scale b := by
  obtain ⟨l, rfl⟩ := dvd_iff_exists_eq_mul_left.mp hdvd
  have hl : l ≤ a / scale := (Nat.le_div_iff_mul_le hs).mpr hle
  refine ⟨(fullCached_mul hs).mpr fun j hj => hfull.1 j (by omega), ?_⟩
  rw [cdiv_mul_self l hs, fullRows_mul hs, fullRows, take_append_of_le_length (by simpa using hl),
    take_rowsFrom _ _ hl]

/-- Without a dropped unit, the greatest aligned number of cached units. -/
theorem findFullAttention_keep (hh : 0 < h) (hs : 0 < scale) (hpool : pool.hashBlockSize = h)
    (halign : AlignedTo align scale) :
    ∃ a, IsGreatest {a | a ≤ maxLength / h ∧ align ∣ a ∧
        FullCached (probeAt pool groupIds blockHashes) scale a} a ∧
      findFullAttention pool (scale * h) groupIds blockHashes maxLength false (align * h) =
        .ok (fullRows (probeAt pool groupIds blockHashes) scale a, a * h) := by
  obtain ⟨a, ⟨⟨hbound, hstep, hfull⟩, hgreatest⟩, hfind⟩ :=
    findFullAttention_spec groupIds blockHashes maxLength hh hs hpool halign false
  have hhit : fullHit align scale false a = a / align * align := by simp [fullHit]
  rw [hhit] at hfind
  rcases halign with ⟨hdvd, hpos⟩ | ⟨rfl, hlt⟩
  · have hfloor : a / align * align ≤ a := Nat.div_mul_le_self a align
    obtain ⟨hcached, htake⟩ :=
      hfull.floor hs (hdvd.trans (Nat.dvd_mul_left align (a / align))) hfloor
    rw [htake] at hfind
    refine ⟨a / align * align, ⟨⟨hfloor.trans hbound, Nat.dvd_mul_left _ _, hcached⟩, ?_⟩, hfind⟩
    rintro b ⟨hb, hal, hbfull⟩
    have hba : b ≤ a :=
      hgreatest ⟨hb, (Nat.min_eq_right (Nat.le_of_dvd hpos hdvd)).symm ▸ hdvd.trans hal, hbfull⟩
    rw [← Nat.div_mul_cancel hal]
    exact Nat.mul_le_mul_right _ (Nat.div_le_div_right hba)
  · have hmin : min 1 scale = 1 := Nat.min_eq_left hs
    rw [Nat.div_one, Nat.mul_one, take_of_length_le (length_fullRows _ hs a).le] at hfind
    refine ⟨a, ⟨⟨hbound, one_dvd a, hfull⟩, fun b hb => hgreatest ⟨hb.1, ?_, hb.2.2⟩⟩, hfind⟩
    rw [hmin]
    exact one_dvd b

/-- Without a dropped block, the greatest aligned number of units that ends a cached window. -/
theorem findSlidingWindow_keep {window : ℕ} (hh : 0 < h) (hs : 0 < scale)
    (hpool : pool.hashBlockSize = h) (hdvd : scale ∣ align) (hpos : 0 < align)
    (hcovered : maxLength / h / scale ≤ blockHashes.length / scale) :
    ∃ a, IsGreatest {a | a ≤ maxLength / h ∧ align ∣ a ∧
        WindowCached (blockProbe (probeAt pool groupIds blockHashes) scale)
          (contiguousBlocksForHit window (scale * h) false) (a / scale)} a ∧
      findSlidingWindow pool window (scale * h) groupIds blockHashes maxLength false (align * h) =
        .ok (windowRows (blockProbe (probeAt pool groupIds blockHashes) scale)
          (groupIds.map fun _ => pool.nullBlock)
          (contiguousBlocksForHit window (scale * h) false) (a / scale), a * h) := by
  subst hpool
  set h := pool.hashBlockSize
  obtain ⟨u, rfl⟩ := dvd_iff_exists_eq_mul_left.mp hdvd
  have hb : 0 < scale * h := Nat.mul_pos hs hh
  have hbound := div_block maxLength h scale
  obtain ⟨hashes, hresolve, hprobe, hlength⟩ :=
    resolveBlockHashes_block hh hs pool groupIds blockHashes
  have hlen : maxLength / (scale * h) ≤ hashes.length := by
    rwa [hlength, hbound]
  have hmod : u * scale * h % (scale * h) = 0 := by simp [Nat.mul_assoc]
  obtain ⟨e, hle, hwindow, hgreatest, hfind⟩ :=
    findSlidingWindow_spec window groupIds false hmod hresolve hlen
  have hue : u ∣ e := by
    rcases Nat.eq_zero_or_pos e with rfl | he
    · exact dvd_zero u
    · have := (hwindow he).1
      rw [Nat.mul_assoc, endAligned_iff hb] at this
      exact this
  rw [hprobe, hbound] at hgreatest
  rw [hprobe] at hwindow hfind
  rw [Nat.mul_assoc, slidingCount_keep hb hue, ← Nat.mul_assoc, ← Nat.mul_assoc] at hfind
  rw [hbound] at hle
  refine ⟨e * scale, ⟨⟨(Nat.le_div_iff_mul_le hs).mp hle, ?_, ?_⟩, ?_⟩, ?_⟩
  · exact Nat.mul_dvd_mul_right hue scale
  · rw [Nat.mul_div_cancel _ hs]
    rcases Nat.eq_zero_or_pos e with rfl | he
    · intro j hj
      omega
    · exact (hwindow he).2
  · rintro a ⟨ha, hal, hcached⟩
    obtain ⟨q, rfl⟩ := dvd_iff_exists_eq_mul_left.mp (hdvd.trans hal)
    rw [Nat.mul_div_cancel _ hs] at hcached
    refine Nat.mul_le_mul_right _ ?_
    rcases Nat.eq_zero_or_pos q with rfl | hq
    · exact Nat.zero_le e
    · refine hgreatest q hq ((Nat.le_div_iff_mul_le hs).mpr ha) ?_ hcached
      rw [Nat.mul_assoc, endAligned_iff hb]
      exact (Nat.mul_dvd_mul_iff_right hs).mp hal
  · rw [hfind, Nat.mul_div_cancel _ hs, take_of_length_le (by simp [windowRows])]

end Vllm.LongestHit
