import Vllm.ManagerPools
import Vllm.NullBlock
import Vllm.PagedTables

/-!
The tables of sliding-window and chunked-local groups. Blocks outside the
attention window are given back as a request moves on and leave null blocks, so
a table is a run of null blocks followed by the blocks the request holds. Each
operation of a group is described by what it does to the two parts.
-/
namespace Vllm.RecycledTables

open Outcome Pool CacheManagers KVCacheManager List
open NullBlock ManagerFrames ManagerPools PagedTables

variable {n : ℕ} {P : Entry n → Prop} {W : Manager n → Manager n → Prop}

/-- The kinds that give blocks back before a request ends. -/
def recycles : ManagerKind → Bool
  | .slidingWindow _ _ => true
  | .chunkedLocal _ => true
  | _ => false

theorem isPaged_of_recycles {kind : ManagerKind} (h : recycles kind) : isPaged kind := by
  cases kind <;> simp_all [recycles, isPaged]

theorem cacheBlocks_eq {k : ManagerConfig} (h : recycles k.kind) (req : CacheRequest)
    (numTokens : ℕ) (retention : Option ℕ) (replay : ℕ) :
    (Manager.cacheBlocks k req numTokens retention replay : ManagerM n _) =
      Base.cacheBlocks k req numTokens retention replay := by
  unfold Manager.cacheBlocks
  cases hkind : k.kind <;> simp_all [recycles]

/-- More processed tokens skip more blocks. -/
theorem numSkippedBlocks_mono (k : ManagerConfig) {a b : ℕ} (h : a ≤ b) :
    k.numSkippedBlocks a ≤ k.numSkippedBlocks b := by
  unfold ManagerConfig.numSkippedBlocks ManagerConfig.getNumSkippedTokens
  refine Nat.div_le_div_right ?_
  split
  · exact le_rfl
  · omega
  · omega
  · exact le_rfl
  · exact Nat.mul_le_mul_right _ (Nat.div_le_div_right h)
  · omega

/-! ### Tables of null blocks and held ones -/

def heldBlocks (null : Fin n) (blocks : List (Fin n)) : ℕ := (blocks.filter (· ≠ null)).length

/-- A table that starts with `j` null blocks and has no others. -/
def Recycled (null : Fin n) (j : ℕ) (blocks : List (Fin n)) : Prop :=
  ∃ held, blocks = List.replicate j null ++ held ∧ null ∉ held

/-- Null blocks come first in a list of hits. -/
def NullsFirst (null : Fin n) (hits : List (Fin n)) : Prop := ∃ j, Recycled null j hits

section
variable {null : Fin n} {j : ℕ} {blocks : List (Fin n)}

section
variable (h : Recycled null j blocks)
include h

/-- A recycled table holds all but its null blocks. -/
theorem Recycled.heldBlocks_eq : heldBlocks null blocks = blocks.length - j := by
  obtain ⟨held, rfl, hnull⟩ := h
  have hheld : held.filter (· ≠ null) = held :=
    filter_eq_self.mpr fun b hb => decide_eq_true fun hbn => hnull (hbn ▸ hb)
  rw [heldBlocks, filter_append, hheld]
  simp

theorem Recycled.append {fresh : List (Fin n)} (hfresh : null ∉ fresh) :
    Recycled null j (blocks ++ fresh) := by
  obtain ⟨held, rfl, hnull⟩ := h
  exact ⟨held ++ fresh, append_assoc .., by simp [hnull, hfresh]⟩

/-- A held block may be exchanged for another one. -/
theorem Recycled.set {idx : ℕ} {source cow : Fin n} (hidx : blocks[idx]? = some source)
    (hsource : source ≠ null) (hcow : cow ≠ null) : Recycled null j (blocks.set idx cow) := by
  obtain ⟨held, rfl, hnull⟩ := h
  have hj : j ≤ idx := by
    by_contra hlt
    rw [getElem?_append_left (by simpa using hlt)] at hidx
    simp only [getElem?_replicate, if_pos (not_le.mp hlt), Option.some.injEq] at hidx
    exact hsource hidx.symm
  refine ⟨held.set (idx - j) cow, ?_, fun hmem => ?_⟩
  · rw [set_append_right _ _ (by simpa using hj), length_replicate]
  · rcases mem_or_eq_of_mem_set hmem with hmem | heq
    · exact hnull hmem
    · exact hcow heq.symm

omit h in
/-- The removal loop over blocks that are all held. -/
theorem removeLoop_run (null : Fin n) (j : ℕ) (run rest : List (Fin n)) (hrun : null ∉ run) :
    (Base.removeLoop null 0 (j + run.length) (List.replicate j null ++ run ++ rest)).2 =
      List.replicate (j + run.length) null ++ rest := by
  induction run using List.reverseRecOn generalizing rest with
  | nil =>
    cases j with
    | zero => rfl
    | succ j => simp [Base.removeLoop, replicate_succ']
  | append_singleton run b ih =>
    have hb : b ≠ null := fun h => hrun (by simp [h])
    have hget : (List.replicate j null ++ (run ++ [b]) ++ rest)[j + run.length]? = some b := by
      simp
    have hset : (List.replicate j null ++ (run ++ [b]) ++ rest).set (j + run.length) null =
        List.replicate j null ++ run ++ (null :: rest) := by
      simp
    have hlen : j + (run ++ [b]).length = j + run.length + 1 := by simp; omega
    rw [hlen, Base.removeLoop, hget]
    simp only [Nat.not_lt_zero, hb, or_self, if_false]
    rw [hset, ih (null :: rest) (fun h => hrun (by simp [h]))]
    simp [replicate_succ']

/-- After the removal of the first `last` blocks these are null. -/
theorem Recycled.removeLoop {last : ℕ} (hlast : last ≤ blocks.length) :
    Recycled null (max j last) (Base.removeLoop null 0 last blocks).2 := by
  obtain ⟨held, rfl, hnull⟩ := h
  rcases Nat.lt_or_ge j last with hlt | hle
  · -- the loop runs down to the null blocks
    obtain ⟨k, rfl⟩ := Nat.exists_eq_add_of_lt hlt
    rw [length_append, length_replicate] at hlast
    have hk : (held.take (k + 1)).length = k + 1 := by simp; omega
    have hloop := removeLoop_run null j (held.take (k + 1)) (held.drop (k + 1))
      fun h => hnull (mem_of_mem_take h)
    rw [append_assoc, take_append_drop, hk, ← Nat.add_assoc] at hloop
    refine ⟨held.drop (k + 1), ?_, fun h => hnull (mem_of_mem_drop h)⟩
    rw [hloop, max_eq_right (by omega)]
  · -- the loop stops at once
    have hstop : (Base.removeLoop null 0 last (List.replicate j null ++ held)).2 =
        List.replicate j null ++ held := by
      cases last with
      | zero => rfl
      | succ last =>
        have hlt : last < j := hle
        have hget : (List.replicate j null ++ held)[last]? = some null := by
          rw [getElem?_append_left (by simpa using hlt), getElem?_replicate, if_pos hlt]
        simp [Base.removeLoop, hget]
    rw [hstop, max_eq_left hle]
    exact ⟨held, rfl, hnull⟩
end

/-- A removal that frees nothing changes nothing. -/
theorem removeLoop_of_freed_nil {first last : ℕ}
    (h : (Base.removeLoop null first last blocks).1 = []) :
    (Base.removeLoop null first last blocks).2 = blocks := by
  cases last with
  | zero => rfl
  | succ last =>
    unfold Base.removeLoop at h ⊢
    split at h
    · rfl
    · split_ifs at h with hstop
      simp [hstop]
end

/-! ### What the operations of a group do to a table -/

/-- The pool keeps the block `null` apart, as its null block. -/
def Apart (null : Fin n) (p : BlockPool n) : Prop := NullApart p ∧ p.nullBlock = null

variable {null : Fin n} {r : RequestId}

theorem Apart.kept {p q : BlockPool n} (h : Apart null p) (hpq : NullKept p q) : Apart null q :=
  ⟨(hpq h.1).1, (hpq h.1).2.trans h.2⟩

/-- The pool keeps `null` apart and the entries of request `r` have property `P`. -/
def EntryHas (null : Fin n) (r : RequestId) (P : Entry n → Prop) (g : Group n) : Prop :=
  Apart null g.pool ∧ P (entry g.manager r)

theorem entryHas_stable : Stable NullKept (EntryHas null r P) :=
  fun _ _ hpool hg => ⟨hg.1.kept hpool, hg.2⟩

def TableHas (null : Fin n) (r : RequestId) (P : List (Fin n) → Prop) (g : Group n) : Prop :=
  Apart null g.pool ∧ P (g.manager.reqToBlocks r)

theorem tableHas_stable {P : List (Fin n) → Prop} : Stable NullKept (TableHas null r P) :=
  entryHas_stable (P := fun e => P e.blocks)

theorem nullKept_frame : PoolFrame (NullKept (n := n)) where
  getNewBlocks := getNewBlocks_nullKept
  touch := touch_nullKept
  freeBlocks := freeBlocks_nullKept
  refresh := refreshCachedFreeBlocks_nullKept
  retain p b := addRef_nullKept p b 1
  caching _ _ _ h := nullKept_of_sameCounts h.sameCounts

variable {null : Fin n} {k : ManagerConfig} {r : RequestId} {g : Group n} {j : ℕ}
  {α : Type} {hits : List (Fin n)} {m : ℕ} {numLocal numExternal : ℕ} {s : CacheState n m}
  {i : Fin m} {q : RequestId} {op : Fin m → ManagerM n PUnit}

/-- Operations for other requests keep what is known of an entry. -/
theorem entryHas_other {op : ManagerM n α} (hq : r ≠ q) (hop : Within (Frame NullKept q W) op)
    (hg : EntryHas null r P g) :
    Ensures op g (fun _ t => EntryHas null r P t) (fun _ _ => True) :=
  (hop g).weaken (fun _ _ ht => ⟨hg.1.kept ht.pool, (ht.other r hq).symm ▸ hg.2⟩)

theorem onPool_entryHas {op : PoolM n α} (hop : Within NullKept op) (hg : EntryHas null r P g) :
    Ensures (onPool op) g (fun _ t => EntryHas null r P t) (fun _ _ => True) :=
  ((onPool_within hop g).and (onPool_same op g)).weaken
    (fun _ _ ht => ⟨hg.1.kept ht.1, (ht.2 r).symm ▸ hg.2⟩)

theorem onPool_tableHas {op : PoolM n α} {P : List (Fin n) → Prop} (hop : Within NullKept op)
    (hg : TableHas null r P g) :
    Ensures (onPool op) g (fun _ t => TableHas null r P t) (fun _ _ => True) :=
  onPool_entryHas (P := fun e => P e.blocks) hop hg

theorem newStepStarts_nullKept (k : ManagerConfig) :
    Within (OnPools (n := n) NullKept) (Manager.newStepStarts k) :=
  (manager_newStepStarts_same k).mono fun g t h => by
    rw [OnPools, h.1]
    exact refl_of NullKept g.pool

theorem newStepStarts_entryHas (k : ManagerConfig)
    (hg : EntryHas null r P g) :
    Ensures (Manager.newStepStarts k) g (fun _ t => EntryHas null r P t) (fun _ _ => True) := by
  refine (manager_newStepStarts_same k g).weaken (fun _ t ht => ?_)
  rw [EntryHas, ht.1, ht.2 r]
  exact hg

theorem newStepStarts_tableHas (k : ManagerConfig) {P : List (Fin n) → Prop}
    (hg : TableHas null r P g) :
    Ensures (Manager.newStepStarts k) g (fun _ t => TableHas null r P t) (fun _ _ => True) :=
  newStepStarts_entryHas (P := fun e => P e.blocks) k hg

theorem stages_other {cfg : Config m} {c : SlotCall n m} (hr : r ≠ c.request.requestId)
    (P : Entry n → Prop) :
    Stages NullKept NullKept cfg c i (EntryHas null r P) (EntryHas null r P) (EntryHas null r P)
      (EntryHas null r P) (EntryHas null r P) := by
  constructor
  case stableBefore => exact ⟨entryHas_stable, entryHas_stable, entryHas_stable⟩
  case stable => exact ⟨entryHas_stable, entryHas_stable, entryHas_stable⟩
  case fullSequence =>
    intro numTokens g t j hrun hg
    exact (entryHas_other hr (manager_getNumBlocksToAllocate_frame _ _ _ _ _ _ _ _) hg).of_ok hrun
  case skip =>
    intro g hg
    exact entryHas_other hr (manager_removeSkippedBlocks_frame freeBlocks_nullKept _ _ _) hg
  case predict =>
    intro g t j hrun hg
    exact (entryHas_other hr (manager_getNumBlocksToAllocate_frame _ _ _ _ _ _ _ _) hg).of_ok hrun
  case addLocal =>
    intro _ g hg
    exact entryHas_other hr (manager_addLocalComputedBlocks_frame _ _ nullKept_frame _ _ _) hg
  case external =>
    intro g hg
    exact entryHas_other hr
      (manager_allocateExternalComputedBlocks_frame _ _ nullKept_frame _ _) hg
  case running =>
    intro _ _ g hg
    exact entryHas_other hr (manager_allocateNewBlocks_frame _ _ nullKept_frame _ _) hg
  case first =>
    intro g hg
    exact entryHas_other hr (manager_allocateNewBlocks_frame _ _ nullKept_frame _ _) hg
  case cache =>
    intro numTokens g hg
    exact entryHas_other hr (manager_cacheBlocks_frame _ nullKept_frame _ _ _ _) hg

/-- An operation of all groups for request `q`, in group `i`. -/
theorem groups_entry {Q : Entry n → Prop} (hop : ∀ j, Within (Frame NullKept q W) (op j))
    (hown : q = r → ∀ g, EntryHas null r P g →
      Ensures (op i) g (fun _ t => EntryHas null r Q t) (fun _ _ => True))
    (hother : q ≠ r → ∀ e, P e → Q e) (hentry : EntryHas null r P (s.group i)) :
    Ensures (forGroups op) s (fun _ t => EntryHas null r Q (t.group i)) (fun _ _ => True) := by
  apply forGroups_focus i (fun j _ => within_pools (hop j)) entryHas_stable entryHas_stable
    ?_ hentry
  intro g hg
  by_cases hq : q = r
  · exact hown hq g hg
  · apply (entryHas_other (fun h => hq h.symm) (hop i) hg).mono
    · intro _ t ht
      exact ⟨ht.1, hother hq _ ht.2⟩
    · intros
      trivial

/-- A loop over the groups changes the table in one of them, for its own request. -/
theorem groups_table {P Q : List (Fin n) → Prop} (hop : ∀ j, Within (Frame NullKept q W) (op j))
    (hown : q = r → ∀ g, TableHas null r P g →
      Ensures (op i) g (fun _ t => TableHas null r Q t) (fun _ _ => True))
    (hother : q ≠ r → ∀ blocks, P blocks → Q blocks) (htable : TableHas null r P (s.group i)) :
    Ensures (forGroups op) s (fun _ t => TableHas null r Q (t.group i)) (fun _ _ => True) :=
  groups_entry (P := fun e => P e.blocks) (Q := fun e => Q e.blocks) hop hown
    (fun hq e => hother hq e.blocks) htable

/-- The removal moves the border between null blocks and others up to the window. -/
theorem removeSkippedBlocks_table (processed : ℕ) (hg : TableHas null r (Recycled null j) g) :
    Ensures (Base.removeSkippedBlocks k r processed) g
      (fun _ t => TableHas null r (fun blocks =>
        blocks.length = (g.manager.reqToBlocks r).length ∧
        Recycled null (max j (min (k.numSkippedBlocks processed) blocks.length)) blocks) t)
      (fun _ _ => True) := by
  obtain ⟨hapart, htable⟩ := hg
  have hnull := hapart.2
  set blocks := g.manager.reqToBlocks r with hblocks
  set last := min (k.numSkippedBlocks processed) blocks.length with hlast
  have hle : last ≤ blocks.length := min_le_right _ _
  have hloop := htable.removeLoop hle
  have hlen := removeLoop_length null 0 last blocks
  rw [Base.removeSkippedBlocks, ensures_bind, ensures_get, ensures_onlyIf, ← hblocks, ← hlast]
  refine ⟨fun _ => ?_, fun hzero => ?_⟩
  · simp only [Base.removeBlocksInRange, ensures_bind, ensures_get, ensures_onlyIf, modifyManager,
      ensures_modify, hnull, ← hblocks, min_eq_left hle]
    refine ⟨fun _ => onPool_tableHas (freeBlocks_nullKept _) ⟨hapart, ?_⟩,
      fun hfreed => ⟨hapart, ?_⟩⟩
    · simpa [Manager.setBlocks, hlen] using hloop
    · rw [removeLoop_of_freed_nil (not_not.mp hfreed)] at hloop
      exact ⟨rfl, hloop⟩
  · have hskip : k.numSkippedBlocks processed = 0 := by
      rw [ManagerConfig.numSkippedBlocks, Nat.eq_zero_of_not_pos hzero, Nat.zero_div]
    refine ⟨hapart, rfl, ?_⟩
    simpa [hskip] using htable

theorem extendBlocks_table (count : ℕ) (hg : TableHas null r (Recycled null j) g) :
    Ensures (Base.extendBlocks k r count) g
      (fun _ t => TableHas null r (fun blocks =>
        blocks.length = (g.manager.reqToBlocks r).length + count ∧ Recycled null j blocks) t)
      (fun _ _ => True) := by
  obtain ⟨hapart, htable⟩ := hg
  have hdraw := ((getNewBlocks_nullKept count g.pool).and
    (getNewBlocks_null_notMem hapart.1 count)).and (getNewBlocks_length count g.pool)
  simp only [Base.extendBlocks, ensures_bind, onPool, ensures_zoom, modifyManager, ensures_modify,
    ensures_pure]
  refine hdraw.weaken ?_
  rintro fresh p ⟨⟨hkept, hfresh⟩, hcount⟩
  rw [hapart.2] at hfresh
  refine ⟨hapart.kept hkept, ?_⟩
  simpa [Manager.recordBlocks, Manager.setBlocks, hcount] using htable.append hfresh

/-- The copy of a partial hit is a held block in place of a held block. -/
theorem redirectPartialHit_table (hg : TableHas null r (Recycled null j) g) :
    Ensures (Base.redirectPartialHit r) g
      (fun _ t => TableHas null r (fun blocks =>
        blocks.length = (g.manager.reqToBlocks r).length ∧ Recycled null j blocks) t)
      (fun _ _ => True) := by
  obtain ⟨hapart, htable⟩ := hg
  rw [Base.redirectPartialHit, ensures_bind, ensures_get]
  split
  · exact ⟨hapart, rfl, htable⟩
  · next blockIdx source _ =>
    have hdraw := (getNewBlocks_nullKept 1 g.pool).and (getNewBlocks_null_notMem hapart.1 1)
    simp only [ensures_bind, modifyManager, ensures_modify, onPool, ensures_zoom]
    refine hdraw.weaken ?_
    rintro fresh p ⟨hkept, hfresh⟩
    rw [ensures_expect]
    refine ⟨fun cow hcow => ?_, fun _ => trivial⟩
    have hcownull : cow ≠ null := by
      rintro rfl
      exact hfresh (hapart.2 ▸ mem_of_mem_head? hcow)
    simp only [Base.applyCow, ensures_bind, ensures_get, ensures_check, modifyManager,
      ensures_modify, onPool, ensures_zoom, ensures_pure]
    refine ⟨fun _ => ⟨fun hsource => ⟨fun hheld => ?_, fun _ => trivial⟩, fun _ => trivial⟩,
      fun _ => trivial⟩
    have hp := hapart.kept hkept
    have hsourcenull : source ≠ null := by
      rintro rfl
      have hmark := (hp.1.marked source).mpr hp.2.symm
      rw [hheld.1] at hmark
      exact Bool.false_ne_true hmark
    refine ⟨hp.kept (addRef_nullKept p cow 1), ?_⟩
    have hset := htable.set hsource hsourcenull hcownull
    simpa [Manager.setBlocks, Manager.setPartialHit] using hset

/-- New blocks come behind, none of them null. -/
theorem allocateNewBlocks_table (numTokens : ℕ) (hg : TableHas null r (Recycled null j) g) :
    Ensures (Base.allocateNewBlocks k r numTokens) g
      (fun _ t => TableHas null r (fun blocks =>
        blocks.length = max (g.manager.reqToBlocks r).length (cdiv numTokens k.blockSize) ∧
        Recycled null j blocks) t) (fun _ _ => True) := by
  rw [Base.allocateNewBlocks, ensures_bind]
  refine (redirectPartialHit_table hg).weaken ?_
  rintro _ t ⟨hapart, hlen, htable⟩
  rw [ensures_bind, ensures_get, ensures_ite]
  refine ⟨fun hle => ⟨hapart, ?_, htable⟩, fun hlt => ?_⟩
  · rw [hlen, max_eq_left (hlen ▸ hle)]
  · rw [ensures_bind]
    refine (extendBlocks_table _ ⟨hapart, htable⟩).weaken ?_
    rintro _ u ⟨hu, hcount, hrecycled⟩
    refine ⟨hu, ?_, hrecycled⟩
    rw [hcount, ← hlen]
    omega

/-- The hits inside the window come behind null blocks for those outside. -/
theorem recycled_hits (hhits : NullsFirst null hits) (skipped : ℕ) :
    ∃ j, skipped ≤ j ∧ Recycled null j (List.replicate skipped null ++ hits.drop skipped) := by
  obtain ⟨a, held, rfl, hnull⟩ := hhits
  refine ⟨skipped + (a - skipped), Nat.le_add_right _ _, held.drop (skipped - a), ?_,
    fun h => hnull (mem_of_mem_drop h)⟩
  rw [drop_append, drop_replicate, length_replicate, ← append_assoc,
    replicate_append_replicate]

/-- A first table has null blocks up to the window or up to those of the hits. -/
theorem addLocalComputedBlocks_table (hhits : NullsFirst null hits) (hg : Apart null g.pool) :
    Ensures (Base.addLocalComputedBlocks k r hits numLocal numExternal) g
      (fun _ t => TableHas null r (fun blocks =>
        blocks.length = max (k.numSkippedBlocks (numLocal + numExternal)) hits.length ∧
        ∃ j, k.numSkippedBlocks (numLocal + numExternal) ≤ j ∧ Recycled null j blocks) t)
      (fun _ _ => True) := by
  simp only [Base.addLocalComputedBlocks, ensures_bind, ensures_get, ensures_check]
  refine ⟨fun _ => ?_, fun _ => trivial⟩
  have htouch : Within (Frame NullKept r Anyhow) (Base.touchComputed k
      (hits.drop (k.numSkippedBlocks (numLocal + numExternal)))) :=
    within_ite (onPool_frame (touch_nullKept _)) (within_check _ _)
  refine (htouch g).weaken (fun _ t ht => ?_)
  refine ⟨hg.kept ht.pool, ?_⟩
  rw [attachComputed_blocks, hg.2]
  exact ⟨by simp; omega, recycled_hits hhits _⟩

theorem allocateExternalComputedBlocks_table (hg : TableHas null r (Recycled null j) g) :
    Ensures (Base.allocateExternalComputedBlocks k r numLocal numExternal) g
      (fun _ t => TableHas null r (fun blocks =>
        blocks.length ≤ max (g.manager.reqToBlocks r).length
          (cdiv (numLocal + numExternal) k.blockSize) ∧ Recycled null j blocks) t)
      (fun _ _ => True) := by
  rw [Base.allocateExternalComputedBlocks, ensures_bind, ensures_get, ensures_onlyIf]
  refine ⟨fun _ => ?_, fun _ => ⟨hg.1, le_max_left _ _, hg.2⟩⟩
  rw [ensures_discard]
  refine (extendBlocks_table _ hg).weaken ?_
  rintro _ t ⟨hapart, hlen, htable⟩
  exact ⟨hapart, by omega, htable⟩

theorem cacheBlocks_table (req : CacheRequest) (numTokens : ℕ) (retention : Option ℕ)
    (replay : ℕ) {P : List (Fin n) → Prop} (hg : TableHas null r P g) :
    Ensures (Base.cacheBlocks k req numTokens retention replay) g
      (fun _ t => TableHas null r P t) (fun _ _ => True) := by
  refine (cacheBlocks_frame nullKept_frame k req numTokens retention replay g).weaken
    (fun _ t ht => ⟨hg.1.kept ht.pool, ?_⟩)
  rw [ht.same.keepsPages.1]
  exact hg.2

theorem popBlocksForFree_table (hk : isPaged k.kind) (hg : Apart null g.pool) :
    Ensures (Manager.popBlocksForFree k r) g (fun _ t => TableHas null r (· = []) t)
      (fun _ _ => True) := by
  rw [popBlocksForFree_eq hk]
  simp only [Base.popBlocksForFree, ensures_bind, ensures_get, modifyManager, ensures_modify,
    ensures_pure]
  exact ⟨hg, by simp [Manager.setPartialHit, Manager.setNumCachedBlock, Manager.setBlocks]⟩

theorem free_table (hk : isPaged k.kind) (hg : Apart null g.pool) :
    Ensures (Manager.free k r) g (fun _ t => TableHas null r (· = []) t) (fun _ _ => True) := by
  rw [Manager.free, ensures_bind]
  exact (popBlocksForFree_table hk hg).weaken
    (fun _ _ ht => onPool_tableHas (freeBlocks_nullKept _) ht)

end Vllm.RecycledTables
