import Mathlib.Algebra.Group.Int.Defs
import Mathlib.Algebra.Group.Nat.Defs
import Mathlib.Data.List.Nodup
import Mathlib.Data.List.Range

/-!
Context parallelism over the KV cache: positions are dealt to the ranks in runs
of `cpInterleave`. The slot mapping, the local sequence length and the slot of a
single position compute the same dealing with different divisions. Positions and
slots are 64-bit integers, block numbers and sizes are 32-bit, and the slot mapping
multiplies the latter with wrap-around.
-/
namespace Vllm.ContextParallel

open List

/-- The sizes of one KV cache group; the kernel's blocks divide those of the
cache, and a block of every rank together has a 32-bit size. -/
structure Layout where
  cpSize : ℕ
  cpInterleave : ℕ
  kvBlockSize : ℕ
  kernelBlockSize : ℕ
  cpSize_pos : 0 < cpSize
  kvBlockSize_pos : 0 < kvBlockSize
  interleave_dvd : cpInterleave ∣ kvBlockSize
  kernel_dvd : kernelBlockSize ∣ kvBlockSize
  virtual_lt : kvBlockSize * cpSize < 2 ^ 31

def padSlotId : ℤ := -1

def wrapInt32 (x : ℕ) : ℤ := (x : ℤ).bmod (2 ^ 32)

variable (l : Layout) (cpRank : ℕ)

def isLocal (position : ℕ) : Bool :=
  if l.cpSize = 1 then true
  else position % (l.kvBlockSize * l.cpSize) / l.cpInterleave % l.cpSize = cpRank

def localPosition (position : ℕ) : ℕ :=
  if l.cpSize = 1 then position
  else
    let virtualBlockSize := l.kvBlockSize * l.cpSize
    let virtualBlockIndex := position / virtualBlockSize
    let virtualBlockOffset := position % virtualBlockSize
    let rounds := virtualBlockOffset / (l.cpInterleave * l.cpSize)
    let remainder := virtualBlockOffset % l.cpInterleave
    let localOffset := rounds * l.cpInterleave + remainder
    virtualBlockIndex * l.kvBlockSize + localOffset

def computeSlotMapping (mappingEnabled : Bool) (blockTable : ℕ → ℕ) (position : ℕ) : ℤ :=
  -- The slot of one token; the load of its block number is masked.
  let localPosition := localPosition l position
  let blockIndex := if mappingEnabled then localPosition / l.kernelBlockSize else 0
  let blockOffset := localPosition % l.kernelBlockSize
  let blockNumber := if isLocal l cpRank position then blockTable blockIndex else 0
  let slotId := wrapInt32 (blockNumber * l.kernelBlockSize) + blockOffset
  let slotId := if l.cpSize ≠ 1 ∧ ¬ isLocal l cpRank position then padSlotId else slotId
  if mappingEnabled then slotId else padSlotId

def dcpLocalSeqLen (seqLen : ℕ) : ℕ :=
  let rounds := seqLen / (l.cpSize * l.cpInterleave)
  let remainder := seqLen % (l.cpSize * l.cpInterleave)
  let remainder := remainder - cpRank * l.cpInterleave
  let remainder := min remainder l.cpInterleave
  rounds * l.cpInterleave + remainder

def cpLocalSlot (position blockNumber blockSize : ℕ) : ℤ :=
  -- The callers load the block number as a 64-bit integer.
  let blockOffset := position % (blockSize * l.cpSize)
  if l.cpSize = 1 then (blockNumber * blockSize + blockOffset : ℕ)
  else
    let isLocal := blockOffset / l.cpInterleave % l.cpSize = cpRank
    let rounds := blockOffset / (l.cpInterleave * l.cpSize)
    let remainder := blockOffset % l.cpInterleave
    let localOffset := rounds * l.cpInterleave + remainder
    if isLocal then (blockNumber * blockSize + localOffset : ℕ) else padSlotId

/-! ### The dealing -/

def owner (position : ℕ) : ℕ := position / l.cpInterleave % l.cpSize

/-- How many positions its rank was dealt before. -/
def localIndex (position : ℕ) : ℕ :=
  position / (l.cpInterleave * l.cpSize) * l.cpInterleave + position % l.cpInterleave

theorem interleave_pos : 0 < l.cpInterleave :=
  Nat.pos_of_dvd_of_pos l.interleave_dvd l.kvBlockSize_pos

theorem kernelBlockSize_pos : 0 < l.kernelBlockSize :=
  Nat.pos_of_dvd_of_pos l.kernel_dvd l.kvBlockSize_pos

variable {l cpRank} {p q : ℕ} {blockTable : ℕ → ℕ}

/-- The test of the kernel asks for the rank that the position is dealt to. -/
theorem isLocal_iff (hrank : cpRank < l.cpSize) : isLocal l cpRank p ↔ owner l p = cpRank := by
  unfold isLocal owner
  split_ifs with hsize
  · rw [hsize, Nat.mod_one]
    exact iff_of_true rfl (by omega)
  · obtain ⟨m, hm⟩ := l.interleave_dvd
    rw [hm, Nat.mul_assoc, Nat.mod_mul_right_div_self, Nat.mod_mod_of_dvd _ ⟨m, Nat.mul_comm ..⟩]
    exact decide_eq_true_iff

theorem localPosition_eq (p : ℕ) : localPosition l p = localIndex l p := by
  unfold localPosition localIndex
  split_ifs with hsize
  · rw [hsize, Nat.mul_one, Nat.mul_comm, Nat.div_add_mod]
  · obtain ⟨m, hm⟩ := l.interleave_dvd
    have hvirtual : l.kvBlockSize * l.cpSize = l.cpInterleave * l.cpSize * m := by
      rw [hm, Nat.mul_right_comm]
    dsimp only
    rw [hvirtual, Nat.mod_mul_right_div_self, ← Nat.div_div_eq_div_mul _ _ m, hm,
      Nat.mod_mod_of_dvd _ ⟨l.cpSize * m, Nat.mul_assoc ..⟩, ← Nat.add_assoc]
    congr 1
    rw [Nat.mul_comm l.cpInterleave m, ← Nat.mul_assoc, ← Nat.add_mul, Nat.mul_comm _ m,
      Nat.div_add_mod]

theorem div_mod_succ {n d : ℕ} (hd : 0 < d) :
    (n + 1) / d = n / d ∧ (n + 1) % d = n % d + 1 ∨
      (n + 1) / d = n / d + 1 ∧ (n + 1) % d = 0 ∧ n % d + 1 = d := by
  have hlt := Nat.mod_lt n hd
  have hsum := Nat.mod_add_div n d
  rcases Nat.lt_or_eq_of_le hlt with hless | hfull
  · exact .inl ((Nat.div_mod_unique hd).mpr ⟨by omega, hless⟩)
  · have hnext : (n + 1) / d = n / d + 1 ∧ (n + 1) % d = 0 :=
      (Nat.div_mod_unique hd).mpr ⟨by rw [Nat.mul_succ]; omega, hd⟩
    exact .inr ⟨hnext.1, hnext.2, hfull⟩

/-- The owner's share of a round. -/
theorem owner_eq_iff : owner l p = cpRank ↔
    cpRank * l.cpInterleave ≤ p % (l.cpInterleave * l.cpSize) ∧
      p % (l.cpInterleave * l.cpSize) < cpRank * l.cpInterleave + l.cpInterleave := by
  have hpos := interleave_pos l
  rw [owner, ← Nat.mod_mul_right_div_self, Nat.div_eq_iff hpos]
  omega

/-- On its own rank a position comes after all earlier positions of that rank. -/
theorem localIndex_of_owner (howner : owner l p = cpRank) :
    localIndex l p = dcpLocalSeqLen l cpRank p := by
  have hmod : p % l.cpInterleave =
      p % (l.cpInterleave * l.cpSize) - cpRank * l.cpInterleave := by
    obtain ⟨hlow, hhigh⟩ := owner_eq_iff.mp howner
    obtain ⟨c, hc⟩ := Nat.exists_eq_add_of_le hlow
    rw [← Nat.mod_mul_right_mod p _ l.cpSize, hc, Nat.mul_add_mod_self_right,
      Nat.mod_eq_of_lt (by omega), Nat.add_sub_cancel_left]
  have hlt := Nat.mod_lt p (interleave_pos l)
  rw [dcpLocalSeqLen, localIndex, Nat.mul_comm l.cpSize, hmod]
  omega

/-- One more position lengthens the share of its owner. -/
theorem dcpLocalSeqLen_succ (hrank : cpRank < l.cpSize) (p : ℕ) :
    dcpLocalSeqLen l cpRank (p + 1) =
      dcpLocalSeqLen l cpRank p + if owner l p = cpRank then 1 else 0 := by
  have hpos := interleave_pos l
  have hshare : cpRank * l.cpInterleave + l.cpInterleave ≤ l.cpInterleave * l.cpSize := by
    rw [← Nat.succ_mul, Nat.mul_comm]
    exact Nat.mul_le_mul_left _ hrank
  simp only [dcpLocalSeqLen, owner_eq_iff, Nat.mul_comm l.cpSize]
  rcases div_mod_succ (n := p) (Nat.mul_pos hpos l.cpSize_pos) with
    ⟨hdiv, hmod⟩ | ⟨hdiv, hmod, hfull⟩
  · rw [hdiv, hmod]
    split_ifs <;> omega
  · rw [hdiv, hmod, Nat.succ_mul]
    split_ifs <;> omega

/-- The local positions below a length, in order, are the first ones. -/
theorem localPositions_range (hrank : cpRank < l.cpSize) (seqLen : ℕ) :
    ((List.range seqLen).filter (isLocal l cpRank)).map (localPosition l) =
      List.range (dcpLocalSeqLen l cpRank seqLen) := by
  induction seqLen with
  | zero => simp [dcpLocalSeqLen]
  | succ seqLen ih =>
    rw [range_succ, filter_append, map_append, ih, dcpLocalSeqLen_succ hrank]
    by_cases howner : owner l seqLen = cpRank
    · rw [filter_cons_of_pos ((isLocal_iff hrank).mpr howner), if_pos howner, range_succ,
        ← localIndex_of_owner howner, ← localPosition_eq]
      rfl
    · rw [filter_cons_of_neg (mt (isLocal_iff hrank).mp howner), if_neg howner]
      exact append_nil _

theorem localPosition_injective (hrank : cpRank < l.cpSize) (hp : isLocal l cpRank p)
    (hq : isLocal l cpRank q) (h : localPosition l p = localPosition l q) : p = q := by
  have hnodup := (localPositions_range hrank (max p q + 1)) ▸ nodup_range
  refine inj_on_of_nodup_map hnodup (mem_filter.mpr ⟨?_, hp⟩) (mem_filter.mpr ⟨?_, hq⟩) h
  · exact mem_range.mpr (Nat.lt_succ_of_le (le_max_left p q))
  · exact mem_range.mpr (Nat.lt_succ_of_le (le_max_right p q))

theorem wrapInt32_of_lt {x : ℕ} (hx : x < 2 ^ 31) : wrapInt32 x = x :=
  Int.bmod_eq_of_le (by omega) (by omega)

def Fits (l : Layout) (blockTable : ℕ → ℕ) : Prop :=
  ∀ i, blockTable i * l.kernelBlockSize < 2 ^ 31

theorem computeSlotMapping_of_local (hfits : Fits l blockTable) (hlocal : isLocal l cpRank p) :
    computeSlotMapping l cpRank true blockTable p =
      (blockTable (localPosition l p / l.kernelBlockSize) * l.kernelBlockSize +
        localPosition l p % l.kernelBlockSize : ℕ) := by
  simp [computeSlotMapping, hlocal, wrapInt32_of_lt (hfits _)]

theorem computeSlotMapping_of_not_local (hlocal : ¬ isLocal l cpRank p) :
    computeSlotMapping l cpRank true blockTable p = padSlotId := by
  have hsize : l.cpSize ≠ 1 := fun h => hlocal (by simp [isLocal, h])
  simp [computeSlotMapping, hlocal, hsize]

/-- A rank pads exactly the positions of other ranks. -/
theorem slot_ne_pad_iff (hfits : Fits l blockTable) :
    computeSlotMapping l cpRank true blockTable p ≠ padSlotId ↔ isLocal l cpRank p := by
  by_cases hlocal : isLocal l cpRank p
  · rw [computeSlotMapping_of_local hfits hlocal, padSlotId]
    exact iff_of_true (by omega) hlocal
  · rw [computeSlotMapping_of_not_local hlocal]
    exact iff_of_false (not_not.mpr rfl) hlocal

/-- Two positions of one rank share a slot only if the block table repeats a block. -/
theorem slot_injective (hfits : Fits l blockTable) (hrank : cpRank < l.cpSize)
    (hp : isLocal l cpRank p) (hq : isLocal l cpRank q)
    (hdistinct : blockTable (localPosition l p / l.kernelBlockSize) =
      blockTable (localPosition l q / l.kernelBlockSize) →
        localPosition l p / l.kernelBlockSize = localPosition l q / l.kernelBlockSize)
    (h : computeSlotMapping l cpRank true blockTable p =
      computeSlotMapping l cpRank true blockTable q) : p = q := by
  have hpos := kernelBlockSize_pos l
  rw [computeSlotMapping_of_local hfits hp, computeSlotMapping_of_local hfits hq,
    Int.natCast_inj] at h
  have hdiv := congrArg (· / l.kernelBlockSize) h
  have hmod := congrArg (· % l.kernelBlockSize) h
  simp only [Nat.mul_comm _ l.kernelBlockSize, Nat.mul_add_div hpos, Nat.mul_add_mod,
    Nat.div_eq_of_lt (Nat.mod_lt _ hpos), Nat.mod_mod, Nat.add_zero] at hdiv hmod
  refine localPosition_injective hrank hp hq ?_
  rw [← Nat.div_add_mod (localPosition l p) l.kernelBlockSize, hmod, hdistinct hdiv,
    Nat.div_add_mod]

/-- A virtual block holds one block of each rank. -/
theorem localPosition_div : localPosition l p / l.kvBlockSize = p / (l.kvBlockSize * l.cpSize) := by
  have hpos := interleave_pos l
  obtain ⟨m, hm⟩ := l.interleave_dvd
  rw [localPosition_eq, localIndex, hm, ← Nat.div_div_eq_div_mul, Nat.mul_comm _ l.cpInterleave,
    Nat.mul_add_div hpos, Nat.div_eq_of_lt (Nat.mod_lt _ hpos), Nat.add_zero,
    Nat.div_div_eq_div_mul, Nat.mul_right_comm]

/-- The helper of the drafter computes the slot that the main kernel computes. -/
theorem cpLocalSlot_eq (hfits : Fits l blockTable) (hsize : l.kernelBlockSize = l.kvBlockSize)
    (p : ℕ) : cpLocalSlot l cpRank p (blockTable (p / (l.kvBlockSize * l.cpSize))) l.kvBlockSize =
      computeSlotMapping l cpRank true blockTable p := by
  by_cases hlocal : isLocal l cpRank p
  · have hmod := Nat.div_add_mod (localPosition l p) l.kvBlockSize
    rw [computeSlotMapping_of_local hfits hlocal, hsize, localPosition_div]
    rw [localPosition_div, Nat.mul_comm] at hmod
    by_cases hone : l.cpSize = 1
    · simp [cpLocalSlot, localPosition, hone]
    · simp only [isLocal, hone, if_false, decide_eq_true_eq] at hlocal
      nth_rewrite 2 [localPosition] at hmod
      simp only [hone, if_false, Nat.add_left_cancel_iff] at hmod
      simp only [cpLocalSlot, hone, hlocal, if_false, if_true, hmod]
  · rw [computeSlotMapping_of_not_local hlocal]
    have hone : l.cpSize ≠ 1 := fun h => hlocal (by simp [isLocal, h])
    simp only [isLocal, hone, if_false, decide_eq_true_eq] at hlocal
    simp only [cpLocalSlot, hone, hlocal, if_false]

/-- Every position has a slot on one rank, the slots of a rank are distinct, its
local positions below a length are the first `dcpLocalSeqLen`, and the slot of a
single position agrees with the slot mapping when the blocks agree. -/
theorem slots_partition (l : Layout) (blockTable : ℕ → ℕ) (hfits : Fits l blockTable) :
    (∀ p, ∃! cpRank, cpRank < l.cpSize ∧
      computeSlotMapping l cpRank true blockTable p ≠ padSlotId) ∧
    (∀ cpRank < l.cpSize, ∀ numBlocks : ℕ,
      (∀ i < numBlocks, ∀ j < numBlocks, blockTable i = blockTable j → i = j) →
        ∀ p q, localPosition l p / l.kernelBlockSize < numBlocks →
          localPosition l q / l.kernelBlockSize < numBlocks →
          computeSlotMapping l cpRank true blockTable p ≠ padSlotId →
          computeSlotMapping l cpRank true blockTable p =
            computeSlotMapping l cpRank true blockTable q → p = q) ∧
    (∀ cpRank < l.cpSize, ∀ seqLen, ((List.range seqLen).filter fun p =>
      computeSlotMapping l cpRank true blockTable p ≠ padSlotId).map (localPosition l) =
        List.range (dcpLocalSeqLen l cpRank seqLen)) ∧
    (l.kernelBlockSize = l.kvBlockSize → ∀ cpRank < l.cpSize, ∀ p,
      cpLocalSlot l cpRank p (blockTable (p / (l.kvBlockSize * l.cpSize))) l.kvBlockSize =
        computeSlotMapping l cpRank true blockTable p) := by
  refine ⟨fun p => ?_, ?_, fun cpRank hrank seqLen => ?_,
    fun hsize cpRank _ => cpLocalSlot_eq hfits hsize⟩
  · have hrank : owner l p < l.cpSize := Nat.mod_lt _ l.cpSize_pos
    have hslot := (slot_ne_pad_iff hfits).mpr ((isLocal_iff hrank).mpr rfl)
    refine ⟨owner l p, ⟨hrank, hslot⟩, ?_⟩
    rintro r ⟨hr, hslot⟩
    exact ((isLocal_iff hr).mp ((slot_ne_pad_iff hfits).mp hslot)).symm
  · intro cpRank hrank numBlocks hdistinct p q hp hq hslot h
    exact slot_injective hfits hrank ((slot_ne_pad_iff hfits).mp hslot)
      ((slot_ne_pad_iff hfits).mp (h ▸ hslot)) (hdistinct _ hp _ hq) h
  · rw [← localPositions_range hrank]
    simp only [slot_ne_pad_iff hfits, Bool.decide_eq_true]

/-- Two ranks deal runs of two positions over blocks of four, which the kernel
halves. -/
theorem slots_partition_twoRanks : ∃ l : Layout,
    (l.cpSize, l.cpInterleave, l.kvBlockSize, l.kernelBlockSize) = (2, 2, 4, 2) ∧
      ((List.range 16).map (computeSlotMapping l 1 true fun i => 7 - i)) =
        [-1, -1, 14, 15, -1, -1, 12, 13, -1, -1, 10, 11, -1, -1, 8, 9] ∧
      ∀ p q, localPosition l p / 2 < 8 → localPosition l q / 2 < 8 →
        computeSlotMapping l 1 true (fun i => 7 - i) p ≠ padSlotId →
        computeSlotMapping l 1 true (fun i => 7 - i) p =
          computeSlotMapping l 1 true (fun i => 7 - i) q → p = q := by
  let l : Layout := ⟨2, 2, 4, 2, by decide, by decide, by decide, by decide, by decide⟩
  have hfits : Fits l fun i => 7 - i := fun i => by
    simp only [l]
    omega
  refine ⟨l, rfl, by decide, (slots_partition l _ hfits).2.1 1 (by decide) 8 ?_⟩
  intro i hi j hj h
  omega

/-- One rank and blocks of 16 tokens: the last slot of block 2^28 - 1 wraps around
to the padding slot. -/
theorem slot_wraps_to_pad : ∃ l : Layout,
    (l.cpSize, l.cpInterleave, l.kvBlockSize, l.kernelBlockSize) = (1, 1, 16, 16) ∧
      computeSlotMapping l 0 true (fun i => 2 ^ 28 - 1 + i) 15 = padSlotId ∧
      cpLocalSlot l 0 15 (2 ^ 28 - 1) 16 = 2 ^ 32 - 1 ∧
      ¬∃ cpRank < l.cpSize,
        computeSlotMapping l cpRank true (fun i => 2 ^ 28 - 1 + i) 15 ≠ padSlotId :=
  ⟨⟨1, 1, 16, 16, by decide, by decide, by decide, by decide, by decide⟩, by decide⟩

end Vllm.ContextParallel
