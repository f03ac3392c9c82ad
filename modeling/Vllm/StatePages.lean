import Vllm.MambaPrediction
import Vllm.SlotRuns

/-!
The state pages that a request holds in a Mamba "align" group. The memory check
at start-up reckons with the state of the last step, the running state, the
speculative blocks and the checkpoint blocks. The pages of a request change in
three places only: the removal of skipped blocks takes some away, the shift of
the table moves them, and the draw adds new ones.
-/
namespace Vllm.StatePages

open Function

open Outcome Pool BlockPool PoolSteps CacheManagers MambaManager KVCacheManager KVCacheRuns List
open PoolFreeList NullBlock ManagerFrames ManagerPools RecycledTables MambaTables MambaPrediction
open SlotRuns
open PagedTables (getNewBlocks_length)

variable {n m : ℕ} {blocks' : List (Fin n)}

/-- The state pages of one request in `max_memory_usage_bytes`. -/
def maxStatePages (spec : MambaSpec) : ℕ :=
  2 + spec.numSpeculativeBlocks + spec.numPrefillCheckpointBlocks

/-! ### Counting held blocks -/

section
variable {null : Fin n} {blocks : List (Fin n)}

theorem heldBlocks_append (null : Fin n) (l l' : List (Fin n)) :
    heldBlocks null (l ++ l') = heldBlocks null l + heldBlocks null l' := by
  simp [heldBlocks]

theorem heldBlocks_le_length (null : Fin n) (l : List (Fin n)) : heldBlocks null l ≤ l.length :=
  length_filter_le _ _

theorem heldBlocks_set {idx : ℕ} {source : Fin n} (hidx : blocks[idx]? = some source)
    (hsource : source ≠ null) (b : Fin n) :
    heldBlocks null (blocks.set idx b) + 1 = heldBlocks null blocks + heldBlocks null [b] := by
  obtain ⟨hlt, rfl⟩ := List.getElem?_eq_some_iff.mp hidx
  have hsplit : blocks = blocks.take idx ++ blocks[idx] :: blocks.drop (idx + 1) := by
    rw [← drop_eq_getElem_cons, take_append_drop]
  have hset : blocks.set idx b = blocks.take idx ++ ([b] ++ blocks.drop (idx + 1)) := by
    rw [set_eq_take_append_cons_drop, if_pos hlt]
    rfl
  have hone : heldBlocks null [blocks[idx]] = 1 := by simp [heldBlocks, hsource]
  rw [hset, heldBlocks_append, heldBlocks_append]
  conv_rhs => rw [hsplit, ← singleton_append, heldBlocks_append, heldBlocks_append, hone]
  omega

/-- Some blocks of a table gave way to null blocks. -/
def Nulled (null : Fin n) (blocks blocks' : List (Fin n)) : Prop :=
  List.Forall₂ (fun b b' => b' = null ∨ b' = b) blocks blocks'

theorem Nulled.refl (null : Fin n) (blocks : List (Fin n)) : Nulled null blocks blocks :=
  forall₂_same.mpr fun _ _ => .inr rfl

theorem Nulled.trans {blocks'' : List (Fin n)} (h : Nulled null blocks blocks')
    (h' : Nulled null blocks' blocks'') : Nulled null blocks blocks'' := by
  induction h generalizing blocks'' with
  | nil => exact h'
  | cons hb _ ih =>
    cases h' with
    | cons hb' htail =>
      refine .cons ?_ (ih htail)
      rcases hb' with rfl | rfl
      · exact .inl rfl
      · exact hb

theorem Nulled.set (null : Fin n) (blocks : List (Fin n)) (idx : ℕ) :
    Nulled null blocks (blocks.set idx null) := by
  induction blocks generalizing idx with
  | nil => exact .nil
  | cons b blocks ih =>
    cases idx with
    | zero => exact .cons (.inl rfl) (Nulled.refl null blocks)
    | succ idx => exact .cons (.inr rfl) (ih idx)

theorem Nulled.length_eq (h : Nulled null blocks blocks') : blocks'.length = blocks.length :=
  (List.Forall₂.length_eq h).symm

/-- A table that lost blocks holds no more than before. -/
theorem Nulled.heldBlocks_le (h : Nulled null blocks blocks') :
    heldBlocks null blocks' ≤ heldBlocks null blocks := by
  induction h with
  | nil => exact le_rfl
  | @cons b b' l l' hb _ ih =>
    have hhead : heldBlocks null [b'] ≤ heldBlocks null [b] := by
      rcases hb with rfl | rfl
      · simp [heldBlocks]
      · exact le_rfl
    rw [← singleton_append, ← singleton_append (l := l), heldBlocks_append,
      heldBlocks_append]
    omega

def Cleared (null : Fin n) (k : ℕ) (blocks : List (Fin n)) : Prop :=
  ∀ idx < k, ∀ b, blocks[idx]? = some b → b = null

theorem Cleared.heldBlocks_le {k : ℕ} (h : Cleared null k blocks) :
    heldBlocks null blocks ≤ blocks.length - k := by
  have hfront : heldBlocks null (blocks.take k) = 0 := by
    rw [heldBlocks, length_eq_zero_iff, filter_eq_nil_iff]
    intro b hb
    obtain ⟨idx, hidx, rfl⟩ := mem_take_iff_getElem.mp hb
    have hnull := h idx (by omega) _ (getElem?_eq_getElem (by omega))
    simp [hnull]
  have hback := heldBlocks_le_length null (blocks.drop k)
  rw [length_drop] at hback
  calc heldBlocks null blocks = heldBlocks null (blocks.take k ++ blocks.drop k) := by
        rw [take_append_drop]
    _ ≤ blocks.length - k := by rw [heldBlocks_append, hfront]; omega

theorem Nulled.of_getElem? {idx : ℕ} {b : Fin n}
    (h : Nulled null blocks blocks') (hb : blocks'[idx]? = some b) :
    b = null ∨ blocks[idx]? = some b := by
  obtain ⟨hlt, rfl⟩ := List.getElem?_eq_some_iff.mp hb
  obtain ⟨hlen, hget⟩ := forall₂_iff_get.mp h
  refine (hget idx (hlen ▸ hlt) hlt).imp id fun hsame => ?_
  rw [getElem?_eq_getElem (hlen ▸ hlt)]
  exact congrArg some hsame.symm

theorem Nulled.cleared {k : ℕ} (h : Nulled null blocks blocks')
    (hk : Cleared null k blocks) : Cleared null k blocks' := by
  intro idx hidx b hb
  rcases h.of_getElem? hb with hnull | hsame
  · exact hnull
  · exact hk idx hidx b hsame
end

/-! ### The removal of skipped blocks -/

/-- The pool kept its null block and its hashes, as when blocks are only
freed. -/
def FreedOnly (p q : BlockPool n) : Prop := NullKept p q ∧ SameIndex p q

instance : IsPreorder (BlockPool n) FreedOnly where
  refl p := ⟨refl_of NullKept p, refl_of SameIndex p⟩
  trans _ _ _ h h' := ⟨trans_of NullKept h.1 h'.1, trans_of SameIndex h.2 h'.2⟩

theorem freeBlocks_freedOnly (bs : List (Fin n)) : Within FreedOnly (freeBlocks bs) :=
  fun p => (freeBlocks_nullKept bs p).and (PoolSteps.freeBlocks_within bs p)

/-- The removal clears the entries below `skipped` of the table of `r`: none of
them is published, or was when the removal passed it. -/
def Retirable (skipped : ℕ) (r : RequestId) (g : Group n) : Prop :=
  ∀ idx < skipped, ∀ b, (g.manager.reqToBlocks r)[idx]? = some b → b = g.pool.nullBlock ∨
      g.manager.mamba.numRetiredBlocks r ≤ idx ∧ (g.pool.blocks b).blockHash = none

theorem retirable_stable (skipped : ℕ) (r : RequestId) :
    Stable FreedOnly (Retirable (n := n) skipped r) := by
  intro g p hp hg idx hidx b hb
  rw [hp.2.nullBlock, hp.2.blockHash]
  exact hg idx hidx b hb

section
variable {pool : BlockPool n}

/-- The removal replaces blocks by null blocks and moves none. -/
theorem retireLoop_nulled (pool : BlockPool n) (first last : ℕ) (blocks : List (Fin n)) :
    Nulled pool.nullBlock blocks (retireLoop pool first last blocks).2 := by
  induction last generalizing blocks with
  | zero => exact Nulled.refl _ _
  | succ last ih =>
    unfold retireLoop
    split
    · exact Nulled.refl _ _
    · split
      · exact ih blocks
      · split
        · exact ih blocks
        · exact (Nulled.set _ _ last).trans (ih _)

/-- The loop clears what it passes, except published blocks. -/
theorem retireLoop_cleared (hpool : NullApart pool) {first last : ℕ} {blocks : List (Fin n)}
    (h : ∀ idx < last, ∀ b, blocks[idx]? = some b →
      b = pool.nullBlock ∨ first ≤ idx ∧ (pool.blocks b).blockHash = none) :
    Cleared pool.nullBlock last (retireLoop pool first last blocks).2 := by
  induction last generalizing blocks with
  | zero => exact fun idx hidx => absurd hidx (Nat.not_lt_zero idx)
  | succ last ih =>
    have hbelow := fun idx (hidx : idx < last) => h idx (by omega)
    -- the entry at `last` after the rest of the loop, given what it was before
    have hextend {table : List (Fin n)} (hlast : ∀ b, table[last]? = some b → b = pool.nullBlock)
        (hrest : Cleared pool.nullBlock last (retireLoop pool first last table).2) :
        Cleared pool.nullBlock (last + 1) (retireLoop pool first last table).2 := by
      intro idx hidx b hb
      rcases Nat.lt_succ_iff_lt_or_eq.mp hidx with hlt | rfl
      · exact hrest idx hlt b hb
      · exact ((retireLoop_nulled pool first idx table).of_getElem? hb).elim id (hlast b)
    unfold retireLoop
    split
    · next hstop =>
      intro idx hidx b hb
      exact (h idx hidx b hb).elim id fun hpassed => by omega
    · split
      · next hnone => exact hextend (fun b hb => by simp [hnone] at hb) (ih hbelow)
      · next b hb =>
        split
        · next hstays =>
          refine hextend (fun b' hb' => ?_) (ih hbelow)
          obtain rfl : b = b' := Option.some.inj (hb.symm.trans hb')
          rcases h last (Nat.lt_succ_self last) b hb with hnull | ⟨-, hhash⟩
          · exact hnull
          · simp only [hhash, Option.isSome_none, Bool.false_eq_true, or_false] at hstays
            exact (hpool.marked b).mp hstays
        · refine hextend (fun b' hb' => ?_) (ih fun idx hidx b' hb' => ?_)
          · rw [List.getElem?_set_self (List.getElem?_eq_some_iff.mp hb).1] at hb'
            exact (Option.some.inj hb').symm
          · rw [getElem?_set_ne (by omega)] at hb'
            exact hbelow idx hidx b' hb'

variable {null : Fin n} (k : ManagerConfig) {r : RequestId} {g : Group n}

/-- When nothing below the border is published, the removal clears it. -/
theorem removeBlocksInRange_pages (skipped : ℕ) (hg : Apart null g.pool) :
    Ensures (removeBlocksInRange r 0 (min skipped (g.manager.reqToBlocks r).length)) g
      (fun _ t => TableHas null r (fun blocks => Nulled null (g.manager.reqToBlocks r) blocks ∧
        (Retirable skipped r g → Cleared null skipped blocks)) t) (fun _ _ => True) := by
  obtain ⟨hapart, rfl⟩ := hg
  set table := g.manager.reqToBlocks r with htable
  simp only [removeBlocksInRange, ensures_bind, ensures_get, ensures_onlyIf, ← htable]
  refine ⟨fun hrange => ?_, fun hrange => ⟨⟨hapart, rfl⟩, Nulled.refl _ _, fun hretire => ?_⟩⟩
  · have hnulled := retireLoop_nulled g.pool (max 0 (g.manager.mamba.numRetiredBlocks r))
      (min (min skipped table.length) table.length) table
    set loop := retireLoop g.pool (max 0 (g.manager.mamba.numRetiredBlocks r))
      (min (min skipped table.length) table.length) table with hloop
    have hcleared (hretire : Retirable skipped r g) : Cleared g.pool.nullBlock skipped loop.2 := by
      intro idx hidx b hb
      have hlt := (List.getElem?_eq_some_iff.mp hb).1
      rw [hnulled.length_eq] at hlt
      refine retireLoop_cleared hapart (fun idx hidx b hb => ?_) idx (by omega) b hb
      exact (hretire idx (by omega) b hb).imp id fun h => ⟨by omega, h.2⟩
    have hset : TableHas g.pool.nullBlock r (fun blocks => Nulled g.pool.nullBlock table blocks ∧
        (Retirable skipped r g → Cleared g.pool.nullBlock skipped blocks))
        { g with manager := g.manager.setBlocks r loop.2 } := by
      refine ⟨⟨hapart, rfl⟩, ?_⟩
      simpa [Manager.setBlocks] using ⟨hnulled, hcleared⟩
    simp only [modifyManager, ensures_modify, modifyMamba]
    refine ⟨fun _ => ?_, fun _ => hset⟩
    refine (onPool_tableHas (freeBlocks_nullKept _) hset).weaken (fun _ t ht => ?_)
    simp only [onBlocksFreedEarly, ensures_bind, ensures_get, modifyMamba, modifyManager,
      ensures_modify]
    exact ht
  · -- every entry in the range was passed before
    intro idx hidx b hb
    have hlt := (List.getElem?_eq_some_iff.mp hb).1
    rw [← htable] at hlt
    exact (hretire idx hidx b hb).elim id fun h => absurd h.1 (by omega)

theorem freeLastState_pages (processed : ℕ) (hg : Apart null g.pool) :
    Ensures (freeLastState k r processed) g
      (fun _ t => TableHas null r (Nulled null (g.manager.reqToBlocks r)) t)
      (fun _ _ => True) := by
  have hsame : TableHas null r (Nulled null (g.manager.reqToBlocks r)) g := ⟨hg, Nulled.refl _ _⟩
  rw [freeLastState, ensures_bind, ensures_get]
  dsimp only
  split
  · exact hsame
  · next idx _ =>
    simp only [ensures_onlyIf, ensures_bind, ensures_expect]
    refine ⟨fun _ => ⟨fun b _ => ⟨fun _ => ?_, fun _ => hsame⟩, fun _ => trivial⟩, fun _ => hsame⟩
    refine (onPool_tableHas (freeBlocks_nullKept _) hsame).weaken (fun _ t ht => ?_)
    simp only [modifyManager, ensures_modify, onBlocksFreedEarly, ensures_bind, ensures_get,
      modifyMamba]
    refine ⟨ht.1, ?_⟩
    have hset := ht.2.trans (Nulled.set null _ idx)
    simpa [Manager.setBlocks, hg.2] using hset

/-- The removal turns pages of the table into null blocks, all of those below
the state of the last processed token unless one is published. -/
theorem removeSkippedBlocks_pages (processed : ℕ) (hg : Apart null g.pool) :
    Ensures (MambaManager.removeSkippedBlocks k r processed) g
      (fun _ t => TableHas null r (fun blocks => Nulled null (g.manager.reqToBlocks r) blocks ∧
        (Retirable (k.numSkippedBlocks processed) r g →
          Cleared null (k.numSkippedBlocks processed) blocks)) t) (fun _ _ => True) := by
  rw [MambaManager.removeSkippedBlocks, ensures_bind, ensures_get, ensures_bind, ensures_onlyIf]
  have hlast {t : Group n} (ht : TableHas null r (fun blocks =>
      Nulled null (g.manager.reqToBlocks r) blocks ∧ (Retirable (k.numSkippedBlocks processed) r g →
          Cleared null (k.numSkippedBlocks processed) blocks)) t) :
      Ensures (freeLastState k r processed) t (fun _ u => TableHas null r (fun blocks =>
        Nulled null (g.manager.reqToBlocks r) blocks ∧
          (Retirable (k.numSkippedBlocks processed) r g →
            Cleared null (k.numSkippedBlocks processed) blocks)) u) (fun _ _ => True) := by
    refine (freeLastState_pages k processed ht.1).weaken (fun _ u hu => ?_)
    exact ⟨hu.1, ht.2.1.trans hu.2, fun hretire => hu.2.cleared (ht.2.2 hretire)⟩
  refine ⟨fun _ => ?_, fun hzero => hlast ⟨hg, Nulled.refl _ _, fun _ => ?_⟩⟩
  · exact (removeBlocksInRange_pages (k.numSkippedBlocks processed) hg).weaken
      (fun _ t ht => hlast ht)
  · rw [ManagerConfig.numSkippedBlocks, Nat.eq_zero_of_not_pos hzero, Nat.zero_div]
    exact fun idx hidx => absurd hidx (Nat.not_lt_zero idx)
end

/-! ### The shift of the table and the draw -/

section
variable {null : Fin n} {k : ManagerConfig} {spec : MambaSpec} {r : RequestId} {g : Group n}

/-- Moving scratch blocks to the end changes no count. -/
theorem relocate_pages (l : List ℕ) {held len : ℕ}
    (hg : TableHas null r (fun blocks => heldBlocks null blocks = held ∧ len ≤ blocks.length) g) :
    Ensures (forM l (relocateSpeculativeBlock r)) g
      (fun _ t => TableHas null r (fun blocks => heldBlocks null blocks = held ∧
        len ≤ blocks.length) t) (fun _ _ => True) := by
  induction l generalizing g with
  | nil => exact hg
  | cons idx l ih =>
    obtain ⟨hapart, hheld, hlen⟩ := hg
    rw [forM_cons, ensures_bind, relocateSpeculativeBlock]
    simp only [ensures_bind, ensures_get, ensures_expect, ensures_check, modifyManager,
      ensures_modify]
    refine ⟨fun b hb => ⟨fun hwritable => ?_, fun _ => trivial⟩, fun _ => trivial⟩
    have hnull : b ≠ null := by
      rintro rfl
      have hmark := (hapart.1.marked b).mpr hapart.2.symm
      simp [isBlockWritable, hmark] at hwritable
    refine ih ⟨hapart, ?_⟩
    have hset := heldBlocks_set hb hnull null
    have hmoved : heldBlocks null [b] = 1 ∧ heldBlocks null [null] = 0 := by
      simp [heldBlocks, hnull]
    simp only [Manager.setBlocks, update_self, heldBlocks_append, hapart.2,
      length_append, length_set, length_singleton]
    omega

theorem padBlocks_pages (null : Fin n) (blocks : List (Fin n)) (skipped checkpointBlock : ℕ) :
    heldBlocks null (padBlocks null blocks skipped checkpointBlock) = heldBlocks null blocks ∧
      blocks.length ≤ (padBlocks null blocks skipped checkpointBlock).length := by
  unfold padBlocks
  split
  · simp [heldBlocks]
  · exact ⟨rfl, le_rfl⟩

variable (plan : AllocationPlan n) {blockIdx : ℕ} {source cow : Fin n}

/-- Neither padding nor relocation takes a page. -/
theorem shiftBlocks_pages (hg : Apart null g.pool) : Ensures (shiftBlocks spec r plan) g
      (fun _ t => TableHas null r (fun blocks =>
        heldBlocks null blocks = heldBlocks null (g.manager.reqToBlocks r) ∧
          (g.manager.reqToBlocks r).length ≤ blocks.length) t) (fun _ _ => True) := by
  have hpad := padBlocks_pages null (g.manager.reqToBlocks r) plan.numSkippedBlocks
    plan.checkpointBlock
  simp only [shiftBlocks, ensures_bind, ensures_get, modifyManager, ensures_modify, ensures_onlyIf]
  refine ⟨fun _ => relocate_pages _ ⟨hg, ?_⟩, fun _ => ⟨hg, ?_⟩⟩
  · simpa [Manager.setBlocks, hg.2] using hpad
  · simpa [Manager.setBlocks, hg.2] using hpad

theorem applyCow_pages (hcow : cow ≠ null) {held len : ℕ}
    (hg : TableHas null r (fun blocks => heldBlocks null blocks = held ∧ blocks.length = len) g) :
    Ensures (Base.applyCow r blockIdx source cow) g
      (fun _ t => TableHas null r (fun blocks => heldBlocks null blocks = held ∧
        blocks.length = len) t) (fun _ _ => True) := by
  obtain ⟨hapart, hheld, hlen⟩ := hg
  simp only [Base.applyCow, ensures_bind, ensures_get, ensures_check, modifyManager,
    ensures_modify, onPool, ensures_zoom]
  refine ⟨fun _ => ⟨fun hsource => ⟨fun hused => ?_, fun _ => trivial⟩, fun _ => trivial⟩,
    fun _ => trivial⟩
  have hsourcenull : source ≠ null := by
    rintro rfl
    have hmark := (hapart.1.marked source).mpr hapart.2.symm
    rw [hused.1] at hmark
    exact Bool.false_ne_true hmark
  refine ⟨hapart.kept (addRef_nullKept g.pool cow 1), ?_⟩
  have hset := heldBlocks_set hsource hsourcenull cow
  have hone : heldBlocks null [cow] = 1 := by simp [heldBlocks, hcow]
  simp only [Manager.setBlocks, update_self, length_set]
  omega

/-- The copy of a running request takes a new block and leaves the table. -/
theorem moveToCow_pages {P : List (Fin n) → Prop} (hg : TableHas null r P g) :
    Ensures (moveToCow k r blockIdx source cow) g (fun _ t => TableHas null r P t)
      (fun _ _ => True) := by
  refine (Mamba.moveToCow_frame nullKept_frame.toCopyFrame k r blockIdx source cow g).weaken
    (fun _ t ht => ⟨hg.1.kept ht.pool, ?_⟩)
  rw [ht.same.1]
  exact hg.2

/-- What the allocation leaves: an allocated request with `drawn` more pages at
most. -/
def Drew (null : Fin n) (held drawn : ℕ) (e : Entry n) : Prop :=
  e.allocated = true ∧ heldBlocks null e.blocks ≤ held + drawn

/-- The pages grow by those that are drawn, at most by the bound that is asserted. -/
theorem drawBlocks_pages (prevBlockLen : ℕ) {held len : ℕ}
    (hg : TableHas null r (fun blocks => heldBlocks null blocks = held ∧ len ≤ blocks.length) g) :
    Ensures (drawBlocks k spec r plan prevBlockLen) g
      (fun _ t => EntryHas null r (Drew null held (min (plan.numRequiredBlocks - len)
        (physicalBlockCap spec 0 plan.checkpointBlock plan.blocksAllocated
          plan.materializeNextPage))) t) (fun _ _ => True) := by
  obtain ⟨hapart, hheld, hlen⟩ := hg
  simp only [drawBlocks, ensures_bind, ensures_get, ensures_check]
  refine ⟨fun hcap => ?_, fun _ => trivial⟩
  set missing := plan.numRequiredBlocks - (g.manager.reqToBlocks r).length with hmissing
  have hdraw := ((getNewBlocks_nullKept (missing + plan.pendingCows.length) g.pool).and
    (getNewBlocks_null_notMem hapart.1 _)).and (getNewBlocks_length _ g.pool)
  rw [onPool, ensures_zoom]
  refine hdraw.weaken ?_
  rintro newBlocks p ⟨⟨hkept, hfresh⟩, hcount⟩
  rw [hapart.2] at hfresh
  rw [modifyManager, ensures_modify]
  have hstart : TableHas null r (fun blocks => heldBlocks null blocks = held ∧
      blocks.length = (g.manager.reqToBlocks r).length)
      { pool := p, manager := g.manager.recordBlocks k newBlocks } :=
    ⟨hapart.kept hkept, hheld, rfl⟩
  refine (applyPendingCows_keeps k r _ _ (fun _ _ _ _ ht => moveToCow_pages ht)
    (fun _ _ cow hcow _ ht => applyCow_pages (ne_of_mem_of_not_mem hcow hfresh) ht)
    hstart).weaken ?_
  rintro res t ⟨hres, hapart', hheld', hlen'⟩
  simp only [markAllocated, modifyManager, modifyMamba, ensures_modify, ensures_pure]
  refine ⟨hapart', by simp [entry], ?_⟩
  have hnew := heldBlocks_le_length null res.1
  simp only [entry, Manager.setBlocks, Manager.setPartialHit, update_self,
    heldBlocks_append]
  simp only [physicalBlockCap] at hcap ⊢
  omega

/-- An allocation draws no page for a table that is long enough, and else at
most the pages of its physical bound. -/
theorem allocateNewBlocks_pages (numTokens main : ℕ) (hg : Apart null g.pool) :
    Ensures (MambaManager.allocateNewBlocks k spec r numTokens main) g
      (fun _ t => EntryHas null r (Drew null (heldBlocks null (g.manager.reqToBlocks r))
        (min ((allocationPlan k spec g.manager r numTokens main).numRequiredBlocks -
            (g.manager.reqToBlocks r).length)
          (physicalBlockCap spec 0
            (allocationPlan k spec g.manager r numTokens main).checkpointBlock
            (allocationPlan k spec g.manager r numTokens main).blocksAllocated
            (allocationPlan k spec g.manager r numTokens main).materializeNextPage))) t)
      (fun _ _ => True) := by
  simp only [MambaManager.allocateNewBlocks, ensures_bind, ensures_get, ensures_ite]
  refine ⟨fun _ => ?_, fun _ => ?_⟩
  · simp only [markAllocated, modifyMamba, modifyManager, ensures_modify, ensures_pure]
    exact ⟨hg, by simp [entry], Nat.le_add_right _ _⟩
  · exact (shiftBlocks_pages _ hg).weaken (fun _ t ht => drawBlocks_pages _ _ ht)
end

/-! ### The prediction -/

section
variable (k : ManagerConfig) (spec : MambaSpec) (r : RequestId)
  (numTokens : ℕ) (hits : List (Fin n)) (total numLocal main : ℕ) (g : Group n)

/-- The admission check of a full sequence plans nothing. -/
theorem getNumBlocksToAllocate_capped :
    Ensures (MambaManager.getNumBlocksToAllocate k spec r numTokens hits total numLocal main true) g
      (fun _ t => t = g) (fun _ _ => True) := by
  rw [MambaManager.getNumBlocksToAllocate, ensures_bind, ensures_get, ensures_ite]
  refine ⟨fun _ => rfl, fun _ => ?_⟩
  rw [ensures_bind, ensures_onlyIf]
  exact ⟨fun h => absurd h (by decide), fun _ => rfl⟩

/-- The prediction plans a checkpoint, or nothing when a hit has to wait. -/
theorem getNumBlocksToAllocate_planned :
    Ensures (MambaManager.getNumBlocksToAllocate k spec r numTokens hits total numLocal main false)
      g (fun _ t => t = g ∧ hits ≠ [] ∨ t.pool = g.pool ∧
        entry t.manager r = { entry g.manager r with
          checkpoint := plannedCheckpoint k spec g r total main }) (fun _ _ => True) := by
  rw [MambaManager.getNumBlocksToAllocate, ensures_bind, ensures_get, ensures_ite]
  refine ⟨fun hdeferred => .inl ⟨rfl, fun hnil => ?_⟩, fun _ => ?_⟩
  · simp [hitDeferred, hnil] at hdeferred
  · rw [ensures_bind, ensures_onlyIf]
    refine ⟨fun _ => .inr ?_, fun h => absurd rfl h⟩
    simp [entry]
end

/-! ### Calls that keep the bound -/

/-- A request within the bound. One without blocks of its own has no table. -/
structure PagesBounded (spec : MambaSpec) (null : Fin n) (e : Entry n) : Prop where
  held : heldBlocks null e.blocks ≤ maxStatePages spec
  idle : e.allocated = false → e.blocks = []
  checkpoint : e.checkpoint.isSome → 0 < spec.numPrefillCheckpointBlocks

variable {spec : MambaSpec} {null : Fin n} {e e' : Entry n}

theorem PagesBounded.congr (h : PagesBounded spec null e) (hblocks : e'.blocks = e.blocks)
    (halloc : e'.allocated = e.allocated) (hcheckpoint : e'.checkpoint = e.checkpoint) :
    PagesBounded spec null e' :=
  ⟨hblocks ▸ h.held, fun hidle => hblocks.trans (h.idle (halloc ▸ hidle)),
    fun hsome => h.checkpoint (hcheckpoint ▸ hsome)⟩

theorem PagesBounded.nulled (h : PagesBounded spec null e)
    (hnulled : Nulled null e.blocks e'.blocks) (halloc : e'.allocated = e.allocated)
    (hcheckpoint : e'.checkpoint = e.checkpoint) : PagesBounded spec null e' := by
  refine ⟨hnulled.heldBlocks_le.trans h.held, fun hidle => ?_,
    fun hsome => h.checkpoint (hcheckpoint ▸ hsome)⟩
  have hempty := congrArg List.length (h.idle (halloc ▸ hidle))
  exact length_eq_zero_iff.mp (hnulled.length_eq.trans hempty)

section
variable (cfg : Config m) (i : Fin m) (spec : MambaSpec) (c : SlotCall n m)

def requiredPages : ℕ :=
  cdiv (alignTokensForLookahead (cfg.groups i) (c.numTokensNeedSlot cfg)
    (c.numTokensMainModel cfg)).1 (cfg.groups i).blockSize + spec.numSpeculativeBlocks

def materializesNextPage : Bool :=
  (alignTokensForLookahead (cfg.groups i) (c.numTokensNeedSlot cfg) (c.numTokensMainModel cfg)).2

def skippedPages : ℕ :=
  (cfg.groups i).numSkippedBlocks (c.totalComputedTokens cfg - c.request.numInFlightTokens)

def checkpointInside (hashBlockSize : ℕ) : Bool :=
  0 < spec.numPrefillCheckpointBlocks ∧
    isMambaPrefillCheckpointValid c.allComputedTokens (c.numTokensMainModel cfg)
      (getMambaPrefillCheckpointPosition (c.numTokensMainModel cfg) hashBlockSize
        (cfg.groups i).dropEagleCheckpointBlock) hashBlockSize (cfg.groups i).blockSize
      spec.prefillCheckpointAlignment

/-- A call that has to extend the table of a running request finds no published
page behind the last processed token, and its table reaches past that token by
no more than the running page and the speculative ones. A next page made real
counts as one more, a checkpoint inside the chunk as one and the speculative
pages again. A first call makes no next page real on top of a hit. -/
def PagesFit (cfg : Config m) (i : Fin m) (spec : MambaSpec) (s : CacheState n m)
    (c : SlotCall n m) : Prop :=
  let e := entry (s.managers i) c.request.requestId
  e.blocks.length < requiredPages cfg i spec c →
    if e.allocated then
      Retirable (skippedPages cfg i c) c.request.requestId (s.group i) ∧
        e.blocks.length + (materializesNextPage cfg i c).toNat +
          (if checkpointInside cfg i spec c s.pool.hashBlockSize then
            spec.numSpeculativeBlocks + 1 else 0) ≤
        skippedPages cfg i c + 1 + spec.numSpeculativeBlocks + spec.numPrefillCheckpointBlocks
    else
      c.allComputedTokens = 0 ∨ materializesNextPage cfg i c = false

/-- The table after the removal: when it could be cleared, it holds no page
below the skipped ones. -/
structure Shrunk (null : Fin n) (s : CacheState n m) (e : Entry n) : Prop where
  bounded : PagesBounded spec null e
  length : e.blocks.length = (entry (s.managers i) c.request.requestId).blocks.length
  allocated : e.allocated = (entry (s.managers i) c.request.requestId).allocated
  cleared : Retirable (skippedPages cfg i c) c.request.requestId (s.group i) →
    heldBlocks null e.blocks ≤ e.blocks.length - skippedPages cfg i c

/-- The hits and the loaded state: null blocks up to the page of the last
computed token. -/
structure FirstPages (null : Fin n) (s : CacheState n m) (e : Entry n) : Prop where
  fresh : (entry (s.managers i) c.request.requestId).blocks = []
  idle : e.allocated = false
  checkpoint : e.checkpoint.isSome → 0 < spec.numPrefillCheckpointBlocks
  length : e.blocks.length ≤ cdiv c.allComputedTokens (cfg.groups i).blockSize
  recycled : ∃ j, (cfg.groups i).numSkippedBlocks c.allComputedTokens ≤ j ∧ Recycled null j e.blocks
end

section
variable {cfg : Config m} {i : Fin m} {spec : MambaSpec} {c : SlotCall n m} {null : Fin n}
  {s : CacheState n m} {e : Entry n}

/-- The pages that an allocation may draw, as its plan is made from the
entries. -/
def drawCap (cfg : Config m) (i : Fin m) (spec : MambaSpec) (c : SlotCall n m) (e : Entry n) : ℕ :=
  min (requiredPages cfg i spec c - e.blocks.length)
    (physicalBlockCap spec 0 e.checkpoint.isSome.toNat e.allocated (materializesNextPage cfg i c))

theorem checkpointBlock_le (h : e.checkpoint.isSome → 0 < spec.numPrefillCheckpointBlocks) :
    e.checkpoint.isSome.toNat ≤ spec.numPrefillCheckpointBlocks := by
  cases hsome : e.checkpoint.isSome with
  | false => exact Nat.zero_le _
  | true => exact h hsome

theorem physicalBlockCap_zero (checkpointBlock : ℕ) (allocated materialize : Bool) :
    physicalBlockCap spec 0 checkpointBlock allocated materialize = 1 + checkpointBlock +
      (if allocated = false ∨ checkpointBlock ≠ 0 then spec.numSpeculativeBlocks else 0) +
      materialize.toNat := by
  cases materialize <;> rfl

/-- After the removal there is room for what the allocation may draw. -/
theorem Shrunk.held_le (h : Shrunk cfg i spec c null s e) (hfit : PagesFit cfg i spec s c)
    (hcheckpoint : e.allocated → e.checkpoint.isSome →
      checkpointInside cfg i spec c s.pool.hashBlockSize) :
    heldBlocks null e.blocks + drawCap cfg i spec c e ≤ maxStatePages spec := by
  have hbounded := h.bounded.held
  have hplanned := checkpointBlock_le h.bounded.checkpoint
  have hnext := Bool.toNat_le (materializesNextPage cfg i c)
  unfold drawCap maxStatePages at *
  rw [physicalBlockCap_zero]
  cases halloc : e.allocated with
  | false =>
    rw [h.bounded.idle halloc]
    simp only [heldBlocks, filter_nil, length_nil, true_or, if_true]
    omega
  | true =>
    rcases Nat.lt_or_ge e.blocks.length (requiredPages cfg i spec c) with hgrows | hlong
    · have hfits := hfit (h.length ▸ hgrows)
      rw [← h.allocated, halloc, if_pos rfl, ← h.length] at hfits
      have hcleared := h.cleared hfits.1
      cases hsome : e.checkpoint.isSome with
      | false =>
        simp only [Bool.toNat_false, Bool.true_eq_false, ne_eq, not_true_eq_false, or_self,
          if_false]
        omega
      | true =>
        rw [if_pos (hcheckpoint halloc hsome)] at hfits
        simp only [hsome, Bool.toNat_true, ne_eq, one_ne_zero, not_false_eq_true, or_true,
          if_true] at hplanned ⊢
        omega
    · omega

/-- A request that is allocated for the first time comes within the bound. -/
theorem FirstPages.held_le (h : FirstPages cfg i spec c null s e)
    (hk : (cfg.groups i).kind = .mamba spec) (hfit : PagesFit cfg i spec s c)
    (hfresh : (entry (s.managers i) c.request.requestId).allocated = false) :
    heldBlocks null e.blocks + drawCap cfg i spec c e ≤ maxStatePages spec := by
  obtain ⟨j, hj, hrecycled⟩ := h.recycled
  have hheld := hrecycled.heldBlocks_eq
  have hlength := h.length
  have hplanned := checkpointBlock_le h.checkpoint
  have hnext := Bool.toNat_le (materializesNextPage cfg i c)
  rw [numSkippedBlocks_mamba hk] at hj
  unfold drawCap maxStatePages
  rw [physicalBlockCap_zero, h.idle]
  simp only [true_or, if_true]
  rcases Nat.eq_zero_or_pos (requiredPages cfg i spec c) with hzero | hpos
  · omega
  · have hfits := hfit (by rw [h.fresh]; exact hpos)
    rw [hfresh] at hfits
    rcases hfits with hnone | hnext
    · have hzero : cdiv c.allComputedTokens (cfg.groups i).blockSize = 0 := by
        rw [hnone, cdiv, Nat.zero_add, Nat.div_eq_of_lt]
        have := (cfg.groups i).blockSize_pos
        omega
      omega
    · rw [hnext, Bool.toNat_false]
      omega

variable {g : Group n} {r : RequestId}

section
variable (hk : (cfg.groups i).kind = .mamba spec)
include hk

/-- The new blocks, for a table of which the draw is known. -/
theorem allocateNewBlocks_bounded (hg : Apart null g.pool)
    (hcheckpoint : (entry g.manager r).checkpoint.isSome → 0 < spec.numPrefillCheckpointBlocks)
    (hheld : PagesFit cfg i spec s c → heldBlocks null (entry g.manager r).blocks +
      drawCap cfg i spec c (entry g.manager r) ≤ maxStatePages spec) :
    Ensures (Manager.allocateNewBlocks (cfg.groups i) r (c.numTokensNeedSlot cfg)
      (c.numTokensMainModel cfg)) g (fun _ t => EntryHas null r (fun e =>
        PagesFit cfg i spec s c → PagesBounded spec null e) t) (fun _ _ => True) := by
  simp only [Manager.allocateNewBlocks, hk]
  refine ((allocateNewBlocks_pages _ _ hg).and
    (Mamba.allocateNewBlocks_frame _ spec r anyPool _ _ g)).weaken ?_
  rintro _ t ⟨⟨hapart, halloc, hdrew⟩, hframe⟩
  refine ⟨hapart, fun hfit => ⟨hdrew.trans (hheld hfit), fun hidle => ?_, fun hsome => ?_⟩⟩
  · simp [halloc] at hidle
  · have hentry : (entry t.manager r).checkpoint = (entry g.manager r).checkpoint :=
      congrFun hframe.same r
    exact hcheckpoint (hentry ▸ hsome)

omit hk in
theorem plannedCheckpoint_inside
    (h : (plannedCheckpoint (cfg.groups i) spec g r c.allComputedTokens
      (c.numTokensMainModel cfg)).isSome) :
    0 < spec.numPrefillCheckpointBlocks ∧ checkpointInside cfg i spec c g.pool.hashBlockSize := by
  unfold plannedCheckpoint at h
  dsimp only at h
  split at h
  · next hplanned =>
    have hneeds := hplanned.2
    simp only [needsInternalCheckpoint, decide_eq_true_eq] at hneeds
    exact ⟨hneeds.1, by simpa [checkpointInside] using ⟨hneeds.1, hneeds.2.1⟩⟩
  · simp at h

/-- The hits of a new request leave one page, behind null blocks. -/
theorem addLocalComputedBlocks_first
    (hhits : NullsFirst null (c.newComputedBlockList i) ∧ (c.newComputedBlockList i).length ≤
      cdiv c.numNewComputedTokens (cfg.groups i).blockSize)
    (hfresh : (entry (s.managers i) c.request.requestId).allocated →
      (entry (s.managers i) c.request.requestId).blocks ≠ [])
    (hg : EntryHas null c.request.requestId (Shrunk cfg i spec c null s) g) :
    Ensures (Manager.addLocalComputedBlocks (cfg.groups i) c.request.requestId
      (c.newComputedBlockList i) c.numLocalComputedTokens c.numExternalComputedTokens) g
      (fun _ t => EntryHas null c.request.requestId (FirstPages cfg i spec c null s) t)
      (fun _ _ => True) := by
  obtain ⟨hapart, hshrunk⟩ := hg
  simp only [Manager.addLocalComputedBlocks, hk]
  have hempty : Ensures (Base.addLocalComputedBlocks (cfg.groups i) c.request.requestId
      (c.newComputedBlockList i) c.numLocalComputedTokens c.numExternalComputedTokens) g
      (fun _ _ => g.manager.reqToBlocks c.request.requestId = []) (fun _ _ => True) := by
    simp only [Base.addLocalComputedBlocks, ensures_bind, ensures_get, ensures_check]
    exact ⟨fun h => Ensures.of_forall (fun _ _ => Ensures.of_forall (fun _ _ => h)
      fun _ _ => trivial) fun _ _ => trivial, fun _ => trivial⟩
  have hbase := hempty.and (addLocalComputedBlocks_table hhits.1 hapart)
  have htable : Ensures (MambaManager.addLocalComputedBlocks (cfg.groups i) c.request.requestId
      (c.newComputedBlockList i) c.numLocalComputedTokens c.numExternalComputedTokens) g
      (fun _ t => g.manager.reqToBlocks c.request.requestId = [] ∧
        TableHas null c.request.requestId (fun blocks => blocks.length =
          max ((cfg.groups i).numSkippedBlocks c.allComputedTokens)
            (c.newComputedBlockList i).length ∧
          ∃ j, (cfg.groups i).numSkippedBlocks c.allComputedTokens ≤ j ∧
            Recycled null j blocks) t) (fun _ _ => True) := by
    rw [MambaManager.addLocalComputedBlocks, ensures_bind]
    refine hbase.weaken (fun _ t ht => ?_)
    rw [attachAlignedState, ensures_bind, ensures_get, ensures_onlyIf]
    refine ⟨fun _ => ?_, fun _ => ht⟩
    dsimp only
    split
    · exact ht
    · rw [ensures_onlyIf]
      exact ⟨fun _ => ht, fun _ => ht⟩
  refine (htable.and (Mamba.addLocalComputedBlocks_frame _ _ anyPool _ _ _ g)).weaken ?_
  rintro _ t ⟨⟨hnil, hapart', hlen, hrecycled⟩, -, -, hflags⟩
  have hnone : (entry (s.managers i) c.request.requestId).blocks = [] :=
    length_eq_zero_iff.mp (hshrunk.length.symm.trans (congrArg List.length hnil))
  have hidle : (entry g.manager c.request.requestId).allocated = false := by
    rw [hshrunk.allocated]
    by_contra halloc
    exact hfresh (by simpa using halloc) hnone
  have hcheckpoint : (entry t.manager c.request.requestId).checkpoint =
      (entry g.manager c.request.requestId).checkpoint := congrFun hflags.2 _
  have hnew : cdiv c.numNewComputedTokens (cfg.groups i).blockSize ≤
      cdiv c.allComputedTokens (cfg.groups i).blockSize := by
    refine Nat.div_le_div_right ?_
    unfold SlotCall.allComputedTokens SlotCall.numLocalComputedTokens
    omega
  have hskip := numSkippedBlocks_mamba hk c.allComputedTokens
  refine ⟨hapart', hnone, (congrFun hflags.1 _).trans hidle,
    fun hsome => hshrunk.bounded.checkpoint (hcheckpoint ▸ hsome), ?_, hrecycled⟩
  exact hlen.trans_le (max_le (by omega) (hhits.2.trans hnew))

theorem allocateExternalComputedBlocks_first
    (hg : EntryHas null c.request.requestId (FirstPages cfg i spec c null s) g) :
    Ensures (Manager.allocateExternalComputedBlocks (cfg.groups i) c.request.requestId
      c.numLocalComputedTokens c.numExternalComputedTokens) g
      (fun _ t => EntryHas null c.request.requestId (FirstPages cfg i spec c null s) t)
      (fun _ _ => True) := by
  obtain ⟨hapart, hfirst⟩ := hg
  obtain ⟨j, hj, hrecycled⟩ := hfirst.recycled
  simp only [Manager.allocateExternalComputedBlocks, hk]
  refine ((allocateExternalComputedBlocks_table ⟨hapart, hrecycled⟩).and
    (allocateExternalComputedBlocks_frame anyPool _ _ _ _ g)).weaken ?_
  rintro _ t ⟨⟨hapart', hlen, hrecycled'⟩, -, -, hflags⟩
  have hcheckpoint : (entry t.manager c.request.requestId).checkpoint =
      (entry g.manager c.request.requestId).checkpoint := congrFun hflags.2 _
  exact ⟨hapart', hfirst.fresh, (congrFun hflags.1 _).trans hfirst.idle,
    fun hsome => hfirst.checkpoint (hcheckpoint ▸ hsome),
    hlen.trans (max_le hfirst.length le_rfl), j, hj, hrecycled'⟩

omit hk in
theorem cacheBlocks_entryHas {P : Entry n → Prop} {req : CacheRequest} {numTokens replay : ℕ}
    {retention : Option ℕ}
    (hP : ∀ e e' : Entry n, e'.blocks = e.blocks → e'.allocated = e.allocated →
      e'.checkpoint = e.checkpoint → P e → P e') (hg : EntryHas null r P g) :
    Ensures (Manager.cacheBlocks (cfg.groups i) req numTokens retention replay) g
      (fun _ t => EntryHas null r P t) (fun _ _ => True) := by
  refine (manager_cacheBlocks_frame _ nullKept_frame req numTokens retention replay g).weaken
    (fun _ t ht => ⟨hg.1.kept ht.pool, ?_⟩)
  obtain ⟨hblocks, halloc, hcheckpoint⟩ := ht.same
  exact hP (entry g.manager r) _ (congrFun hblocks r) (congrFun halloc r)
    (congrFun hcheckpoint r) hg.2

/-- The entries of the request that the call is for. -/
theorem pages_stages
    (hhits : NullsFirst null (c.newComputedBlockList i) ∧ (c.newComputedBlockList i).length ≤
      cdiv c.numNewComputedTokens (cfg.groups i).blockSize)
    (hfresh : (entry (s.managers i) c.request.requestId).allocated →
      (entry (s.managers i) c.request.requestId).blocks ≠ [])
    (hrunning : (entry (s.managers i) c.request.requestId).allocated →
      c.newComputedBlockList i = []) :
    Stages FreedOnly NullKept cfg c i
      (fun g => EntryHas null c.request.requestId (fun e => PagesBounded spec null e ∧
        e.blocks.length = (entry (s.managers i) c.request.requestId).blocks.length ∧
        e.allocated = (entry (s.managers i) c.request.requestId).allocated) g ∧
        g.pool.hashBlockSize = s.pool.hashBlockSize ∧
        (Retirable (skippedPages cfg i c) c.request.requestId (s.group i) →
          Retirable (skippedPages cfg i c) c.request.requestId g))
      (fun g => EntryHas null c.request.requestId (Shrunk cfg i spec c null s) g ∧
        g.pool.hashBlockSize = s.pool.hashBlockSize)
      (EntryHas null c.request.requestId fun e => Shrunk cfg i spec c null s e ∧
        (e.allocated → e.checkpoint.isSome → checkpointInside cfg i spec c s.pool.hashBlockSize))
      (EntryHas null c.request.requestId (FirstPages cfg i spec c null s))
      (EntryHas null c.request.requestId fun e =>
        PagesFit cfg i spec s c → PagesBounded spec null e) := by
  constructor
  case stableBefore =>
    refine ⟨fun g p hp hg => ⟨entryHas_stable g p hp.1 hg.1, ?_, fun h => ?_⟩,
      fun g p hp hg => ⟨entryHas_stable g p hp.1 hg.1, ?_⟩,
      fun g p hp hg => entryHas_stable g p hp.1 hg⟩
    · exact hp.2.hashBlockSize.trans hg.2.1
    · exact retirable_stable _ _ g p hp (hg.2.2 h)
    · exact hp.2.hashBlockSize.trans hg.2
  case stable => exact ⟨entryHas_stable, entryHas_stable, entryHas_stable⟩
  case fullSequence =>
    intro numTokens g t j hrun hg
    simp only [Manager.getNumBlocksToAllocate, hk] at hrun
    obtain rfl := (getNumBlocksToAllocate_capped _ spec _ _ _ _ _ _ g).of_ok hrun
    exact hg
  case skip =>
    rintro g ⟨⟨hapart, hbounded, hlen, halloc⟩, hsize, hretire⟩
    simp only [Manager.removeSkippedBlocks, hk]
    refine ((removeSkippedBlocks_pages _ _ hapart).and
      (Mamba.removeSkippedBlocks_frame freeBlocks_freedOnly _ _ _ g)).weaken ?_
    rintro _ t ⟨⟨hapart', hnulled, hcleared⟩, hfreed, -, htrims⟩
    have hflag := congrFun htrims.allocatedBlockReqs c.request.requestId
    exact ⟨⟨hapart', hbounded.nulled hnulled hflag (congrFun htrims.checkpoints _),
      hnulled.length_eq.trans hlen, hflag.trans halloc,
      fun h => (hcleared (hretire h)).heldBlocks_le⟩, hfreed.2.hashBlockSize.trans hsize⟩
  case predict =>
    rintro g t j hrun ⟨⟨hapart, hshrunk⟩, hsize⟩
    simp only [Manager.getNumBlocksToAllocate, hk] at hrun
    rcases (getNumBlocksToAllocate_planned _ spec _ _ _ _ _ _ g).of_ok hrun with
      ⟨rfl, hwaits⟩ | ⟨hpool, hentry⟩
    · exact ⟨hapart, hshrunk, fun halloc => absurd (hrunning (hshrunk.allocated ▸ halloc)) hwaits⟩
    · refine ⟨hpool ▸ hapart, ?_⟩
      rw [hentry, ← hsize]
      exact ⟨⟨⟨hshrunk.bounded.held, hshrunk.bounded.idle,
        fun hsome => (plannedCheckpoint_inside hsome).1⟩, hshrunk.length, hshrunk.allocated,
        hshrunk.cleared⟩, fun _ hsome => (plannedCheckpoint_inside hsome).2⟩
  case addLocal =>
    rintro - g ⟨hapart, hshrunk, -⟩
    exact addLocalComputedBlocks_first hk hhits hfresh ⟨hapart, hshrunk⟩
  case external =>
    intro g hg
    exact allocateExternalComputedBlocks_first hk hg
  case running =>
    rintro - - g ⟨hapart, hshrunk, hcheckpoint⟩
    exact allocateNewBlocks_bounded hk hapart hshrunk.bounded.checkpoint
      fun hfit => hshrunk.held_le hfit hcheckpoint
  case first =>
    rintro g ⟨hapart, hfirst⟩
    refine allocateNewBlocks_bounded hk hapart hfirst.checkpoint
      fun hfit => hfirst.held_le hk hfit ?_
    by_contra halloc
    exact hfresh (by simpa using halloc) hfirst.fresh
  case cache =>
    intro numTokens g hg
    refine cacheBlocks_entryHas (fun e e' hblocks halloc hcheckpoint h hfit => ?_) hg
    exact (h hfit).congr hblocks halloc hcheckpoint

variable {v : VllmConfig}

/-- What a call does to its request: a successful one that fits and a refused
one keep it within the bound. -/
theorem call_bounded {t : CacheState n m} {progress : RequestId → Progress} {taken : Bool}
    (hs : Run v cfg (PagesFit cfg i spec) s progress) (hc : Scheduled v cfg s progress c)
    (hfits : taken → PagesFit cfg i spec s c) (hrun : (allocateSlots cfg c).run s = .ok taken t)
    (hentry : EntryHas null c.request.requestId (PagesBounded spec null) (s.group i)) :
    EntryHas null c.request.requestId (PagesBounded spec null) (t.group i) := by
  have hfirst : c.numNewComputedTokens ≠ 0 ∨ c.numExternalComputedTokens ≠ 0 →
      ∀ j, (s.managers j).numCachedBlock c.request.requestId = none :=
    fun hpos j => (hc.firstTime hpos j).2
  obtain ⟨slots, hreach, -⟩ := hs.reachable
  have hfresh (halloc : (entry (s.managers i) c.request.requestId).allocated) :
      (entry (s.managers i) c.request.requestId).blocks ≠ [] := by
    have hlong := (mambaInv_run.reachable hreach i spec hk c.request.requestId).allocated halloc
    exact ne_nil_of_length_pos (by omega)
  -- a request with blocks has no hits
  have hrunning (halloc : (entry (s.managers i) c.request.requestId).allocated) :
      c.newComputedBlockList i = [] := by
    have hnone : c.numNewComputedTokens = 0 := by
      by_contra hpos
      exact hfresh halloc (hc.firstTime (.inl hpos) i).1
    have hlen := (hc.hits i).2
    rw [hnone, cdiv, Nat.zero_add, Nat.div_eq_of_lt (Nat.sub_lt (cfg.groups i).blockSize_pos
      Nat.one_pos)] at hlen
    exact length_eq_zero_iff.mp (Nat.le_zero.mp hlen)
  have hnull : s.pool.nullBlock = null := hentry.1.2
  have hstages := pages_stages hk (hnull ▸ hc.hits i) hfresh hrunning
  have hend := (hstages.allocateSlots freeBlocks_freedOnly nullKept_frame hc.noHits hfirst
    ⟨⟨hentry.1, hentry.2, rfl, rfl⟩, rfl, id⟩).of_ok hrun
  cases taken with
  | true => exact ⟨hend.1, hend.2 (hfits rfl)⟩
  | false =>
    rcases hend with ⟨⟨hapart, hbounded, -⟩, -⟩ | ⟨hapart, hshrunk, -⟩
    · exact ⟨hapart, hbounded⟩
    · exact ⟨hapart, hshrunk.bounded⟩

/-- The end of a request leaves it without blocks, within the bound. -/
theorem free_bounded (hg : Apart null g.pool) :
    Ensures (Manager.free (cfg.groups i) r) g
      (fun _ t => EntryHas null r (PagesBounded spec null) t) (fun _ _ => True) := by
  simp only [Manager.free, Manager.popBlocksForFree, hk, MambaManager.popBlocksForFree,
    ensures_bind, ensures_get, modifyMamba, modifyManager, ensures_modify]
  refine ((within_onlyIf _ (onPool_within (refreshCachedFreeBlocks_nullKept _)) _).and
    ((within_onlyIf _ (onPool_same _)) _)).weaken (fun _ t ht => ?_)
  have hr := ht.2 r
  simp only [entry, update_self, Entry.mk.injEq] at hr
  simp only [Base.popBlocksForFree, ensures_bind, ensures_get, modifyManager, ensures_modify,
    ensures_pure]
  refine onPool_entryHas (freeBlocks_nullKept _) ⟨hg.kept ht.1, ?_⟩
  constructor <;> simp [entry, Manager.setPartialHit, Manager.setNumCachedBlock,
    Manager.setBlocks, hr, heldBlocks]
end

/-- While the calls fit, a request holds at most the state pages that the
memory check reckons with. -/
theorem state_pages_le_max {progress : RequestId → Progress}
    (hk : (cfg.groups i).kind = .mamba spec) (h : Run v cfg (PagesFit cfg i spec) s progress)
    (r : RequestId) :
    heldBlocks s.pool.nullBlock ((s.managers i).reqToBlocks r) ≤ maxStatePages spec := by
  have hrun : ∃ null, EntryHas null r (PagesBounded spec null) (s.group i) := by
    refine h.entryHas (P := PagesBounded spec) ?_ ?_ ?_ ?_ ?_
    · exact fun _ => ⟨Nat.zero_le _, fun _ => rfl,
        fun hsome => by simp [entry, initManager] at hsome⟩
    · rintro s t progress c taken null hs hc rfl hfits hrun hentry
      exact call_bounded hk hs hc hfits hrun hentry
    · rintro null processed g ⟨hapart, hbounded⟩
      simp only [Manager.removeSkippedBlocks, hk]
      refine ((removeSkippedBlocks_pages _ processed hapart).and
        (Mamba.removeSkippedBlocks_frame anyPool.freeBlocks _ r _ g)).weaken ?_
      rintro _ t ⟨⟨hapart', hnulled, -⟩, -, -, htrims⟩
      exact ⟨hapart', hbounded.nulled hnulled (congrFun htrims.allocatedBlockReqs r)
        (congrFun htrims.checkpoints r)⟩
    · rintro null numTokens replay req g - hentry
      exact cacheBlocks_entryHas (fun _ _ hb ha hc h => h.congr hb ha hc) hentry
    · exact fun hentry => free_bounded hk hentry.1
  obtain ⟨null, hapart, hbounded⟩ := hrun
  have hnull : s.pool.nullBlock = null := hapart.2
  rw [hnull]
  exact hbounded.held

/-- The table of a request with allocated blocks has entries for its running and its
speculative blocks, null blocks counted, and a copy is pending only for a request
with a table. -/
theorem allocated_state_table {progress : RequestId → Progress}
    (hk : (cfg.groups i).kind = .mamba spec) (h : Run v cfg (fun _ _ => True) s progress)
    (r : RequestId) : StateTable spec (entry (s.managers i) r) := by
  obtain ⟨slots, hreachable, -⟩ := h.reachable
  exact mambaInv_run.reachable hreachable i spec hk r
end

theorem allocated_state_table_drafts : ∃ t : CacheState 8 1,
    heldBlocks t.pool.nullBlock ((t.managers 0).reqToBlocks 0) = 5 ∧
      StateTable ⟨1, 0, none⟩ (entry (t.managers 0) 0) := by
  obtain ⟨t, progress, hrun, hheld⟩ := exists_run_of_heldAfter (n := 8)
    (oneBatch 8 (some ⟨.eagle, 1, false⟩)) (oneGroup (.mamba ⟨1, 0, none⟩) false) 0
    (fun _ _ => True) 1 5 [4, 8] (by decide) (by decide) (by decide) (by decide) (by decide +kernel)
  exact ⟨t, hheld, allocated_state_table rfl hrun 0⟩

instance (skipped : ℕ) (r : RequestId) (g : Group n) : Decidable (Retirable skipped r g) :=
  inferInstanceAs (Decidable (∀ idx < skipped, ∀ b ∈ (g.manager.reqToBlocks r)[idx]?, _ ∨ _ ∧ _))

instance (cfg : Config m) (i : Fin m) (spec : MambaSpec) (s : CacheState n m) (c : SlotCall n m) :
    Decidable (PagesFit cfg i spec s c) := by
  unfold PagesFit
  infer_instance

theorem state_pages_le_max_three_chunks : ∃ (t : CacheState 8 1) (progress : RequestId → Progress),
      Run (oneBatch 4 none) (oneGroup (.mamba ⟨1, 0, none⟩) false)
        (PagesFit (oneGroup (.mamba ⟨1, 0, none⟩) false) 0 ⟨1, 0, none⟩) t progress ∧
      heldBlocks t.pool.nullBlock ((t.managers 0).reqToBlocks 0) = 3 ∧
      heldBlocks t.pool.nullBlock ((t.managers 0).reqToBlocks 0) ≤ 3 := by
  obtain ⟨t, progress, hrun, hheld⟩ := exists_run_of_heldAfter (n := 8)
    (oneBatch 4 none) (oneGroup (.mamba ⟨1, 0, none⟩) false) 0
    (PagesFit (oneGroup (.mamba ⟨1, 0, none⟩) false) 0 ⟨1, 0, none⟩) 0 3 [4, 4, 4]
    (by decide) (by decide) (by decide) (by decide) (by decide +kernel)
  exact ⟨t, progress, hrun, hheld, state_pages_le_max rfl hrun 0⟩

/-- A drafter's lookahead makes next pages real, and a request with one
speculative block holds five pages where three are reckoned with. Without
speculation a page that was published stays in the table, and three pages are
held where two are reckoned with. -/
theorem state_pages_exceed_max : (∃ (t : CacheState 8 1) (progress : RequestId → Progress),
      Run (oneBatch 8 (some ⟨.eagle, 1, false⟩)) (oneGroup (.mamba ⟨1, 0, none⟩) false)
        (fun _ _ => True) t progress ∧
      maxStatePages ⟨1, 0, none⟩ = 3 ∧
      heldBlocks t.pool.nullBlock ((t.managers 0).reqToBlocks 0) = 5) ∧
    ∃ (t : CacheState 8 1) (progress : RequestId → Progress),
      Run (oneBatch 4 none) (oneGroup (.mamba ⟨0, 0, none⟩) true) (fun _ _ => True) t progress ∧
      maxStatePages ⟨0, 0, none⟩ = 2 ∧
      heldBlocks t.pool.nullBlock ((t.managers 0).reqToBlocks 0) = 3 := by
  constructor
  · obtain ⟨t, progress, hrun, hheld⟩ := exists_run_of_heldAfter (n := 8)
      (oneBatch 8 (some ⟨.eagle, 1, false⟩)) (oneGroup (.mamba ⟨1, 0, none⟩) false) 0
      (fun _ _ => True) 1 5 [4, 8] (by decide) (by decide) (by decide) (by decide)
      (by decide +kernel)
    exact ⟨t, progress, hrun, rfl, hheld⟩
  · obtain ⟨t, progress, hrun, hheld⟩ := exists_run_of_heldAfter (n := 8)
      (oneBatch 4 none) (oneGroup (.mamba ⟨0, 0, none⟩) true) 0 (fun _ _ => True) 0 3 [2, 3, 4]
      (by decide) (by decide) (by decide) (by decide) (by decide +kernel)
    exact ⟨t, progress, hrun, rfl, hheld⟩

end Vllm.StatePages
