import Vllm.PagedTables

/-!
The block tables of the Mamba manager in "align" mode. In every run the table of
a request with allocated blocks has entries for its running and its speculative
blocks, null blocks counted, and a copy-on-write is pending only for a request
with a table.
-/
namespace Vllm.MambaTables

open List Function

open Outcome Pool CacheManagers MambaManager KVCacheManager KVCacheRuns ManagerFrames PagedTables

variable {n : ℕ} {g t : Group n} {slots : Ledger}

structure StateTable (spec : MambaSpec) (e : Entry n) : Prop where
  allocated : e.allocated → spec.numSpeculativeBlocks + 1 ≤ e.blocks.length
  pending : e.partialHit.isSome ∨ e.alignedStateCow.isSome → e.blocks ≠ []

def MambaInv (k : ManagerConfig) (_ : Ledger) (g : Manager n) : Prop :=
  ∀ spec, k.kind = .mamba spec → ∀ q, StateTable spec (entry g q)

def SameShape (g t : Group n) : Prop :=
  ∀ q, (entry t.manager q).blocks.length = (entry g.manager q).blocks.length ∧
    (entry t.manager q).allocated = (entry g.manager q).allocated ∧
    (entry t.manager q).partialHit = (entry g.manager q).partialHit ∧
    (entry t.manager q).alignedStateCow = (entry g.manager q).alignedStateCow

theorem SameEntries.sameShape (h : SameEntries g t) : SameShape g t :=
  fun q => by rw [h q]; exact ⟨rfl, rfl, rfl, rfl⟩

theorem onPool_sameShape {α : Type} (op : PoolM n α) : Within SameShape (onPool op) :=
  (onPool_same op).mono fun _ _ h => SameEntries.sameShape h

theorem Trims.sameShape (h : Trims g.manager t.manager) : SameShape g t :=
  fun q => ⟨h.length q, congrFun h.allocatedBlockReqs q, congrFun h.partialHitReqs q,
    congrFun h.alignedStateCowReqs q⟩

/-- The invariant reads the tables only by their shape. -/
theorem SameShape.mambaInv {k : ManagerConfig}
    (h : SameShape g t) (hg : MambaInv k slots g.manager) : MambaInv k slots t.manager := by
  intro spec hk q
  obtain ⟨hlen, halloc, hhit, hcow⟩ := h q
  have hq := hg spec hk q
  refine ⟨fun ha => hlen ▸ hq.allocated (halloc ▸ ha), fun hp hnil => ?_⟩
  rw [hhit, hcow] at hp
  exact hq.pending hp (length_eq_zero_iff.mp (by rw [← hlen, hnil]; rfl))

/-- Caching publishes blocks of the table; only then something becomes
pending. -/
def Publishes (g t : Group n) : Prop :=
  ∀ q, (entry t.manager q).blocks.length = (entry g.manager q).blocks.length ∧
    (entry t.manager q).allocated = (entry g.manager q).allocated ∧
    ((entry t.manager q).partialHit.isSome ∨ (entry t.manager q).alignedStateCow.isSome →
      (entry g.manager q).partialHit.isSome ∨ (entry g.manager q).alignedStateCow.isSome ∨
        (entry g.manager q).blocks ≠ [])

theorem blocks_ne_nil_iff {e e' : Entry n} (h : e'.blocks.length = e.blocks.length) :
    e'.blocks ≠ [] ↔ e.blocks ≠ [] := by
  rw [← length_pos_iff, ← length_pos_iff, h]

instance : IsPreorder (Group n) Publishes where
  refl _ _ := ⟨rfl, rfl, fun h => h.imp_right .inl⟩
  trans g t u h h' q := by
    obtain ⟨hlen, halloc, hpending⟩ := h q
    obtain ⟨hlen', halloc', hpending'⟩ := h' q
    refine ⟨hlen'.trans hlen, halloc'.trans halloc, fun hp => ?_⟩
    rcases hpending' hp with hp | hp | hne
    · exact hpending (.inl hp)
    · exact hpending (.inr hp)
    · exact .inr (.inr ((blocks_ne_nil_iff hlen).mp hne))

theorem SameShape.publishes (h : SameShape g t) : Publishes g t := by
  intro q
  obtain ⟨hlen, halloc, hhit, hcow⟩ := h q
  refine ⟨hlen, halloc, fun hp => ?_⟩
  rw [hhit, hcow] at hp
  exact hp.imp_right .inl

/-- What caching makes pending belongs to requests that have blocks. -/
theorem Publishes.mambaInv {k : ManagerConfig}
    (h : Publishes g t) (hg : MambaInv k slots g.manager) : MambaInv k slots t.manager := by
  intro spec hk q
  obtain ⟨hlen, halloc, hpending⟩ := h q
  have hq := hg spec hk q
  refine ⟨fun ha => hlen ▸ hq.allocated (halloc ▸ ha), fun hp => ?_⟩
  rw [blocks_ne_nil_iff hlen]
  rcases hpending hp with hp | hp | hne
  · exact hq.pending (.inl hp)
  · exact hq.pending (.inr hp)
  · exact hne

/-! ### Caching -/

section
variable (k : ManagerConfig) (r : RequestId)

theorem modifyPending_publishes {f : Manager n → Manager n}
    (hne : g.manager.reqToBlocks r ≠ [])
    (h : ∀ p q, (f p).reqToBlocks q = p.reqToBlocks q ∧
      (f p).mamba.allocatedBlockReqs q = p.mamba.allocatedBlockReqs q ∧
      (q ≠ r → (f p).partialHitReqs q = p.partialHitReqs q ∧
        (f p).mamba.alignedStateCowReqs q = p.mamba.alignedStateCowReqs q)) :
    Ensures (modifyManager f) g (fun _ t => Publishes g t) (fun _ t => Publishes g t) := by
  rw [modifyManager, ensures_modify]
  intro q
  obtain ⟨hblocks, halloc, hother⟩ := h g.manager q
  refine ⟨congrArg List.length hblocks, halloc, fun hp => ?_⟩
  by_cases hq : q = r
  · subst hq
    exact .inr (.inr hne)
  · obtain ⟨hhit, hcow⟩ := hother hq
    simp only [entry, hhit, hcow] at hp ⊢
    exact hp.imp_right .inl

variable (req : CacheRequest) (numTokens : ℕ) (retention : Option ℕ)

/-- The published tail is pending until the next step copies it. -/
theorem cacheTail_publishes : Within Publishes (cacheTail k req numTokens : ManagerM n _) := by
  refine within_get_bind fun g => ?_
  rw [ensures_ite]
  refine ⟨fun _ => ?_, fun _ => refl_of Publishes g⟩
  dsimp only
  split
  · exact refl_of Publishes g
  · next source hsource =>
    rw [ensures_ite]
    refine ⟨fun _ => refl_of Publishes g, fun _ => ?_⟩
    have hne : g.manager.reqToBlocks req.requestId ≠ [] := by
      intro hnil
      simp [hnil] at hsource
    have hpool := (onPool_sameShape (cachePartialBlock req.toRequest source numTokens
      k.kvCacheGroupId k.blockSize false) g).mono (fun _ _ h => h.publishes)
      (fun _ _ h => h.publishes)
    refine Ensures.bind_trans hpool fun hash t ht => ?_
    rw [ensures_bind, ensures_onlyIf]
    refine ⟨fun _ => ?_, fun _ => refl_of Publishes t⟩
    simp only [recordProducer, ensures_pure]
    refine modifyPending_publishes req.requestId ?_ fun p q => ⟨rfl, rfl, fun hq => ?_⟩
    · exact (blocks_ne_nil_iff (ht req.requestId).1).mpr hne
    · simp [Manager.setNumCachedBlock, Manager.setPartialHit, hq]

theorem cachePartialTailBlock_publishes :
    Within Publishes (cachePartialTailBlock k req numTokens retention : ManagerM n _) := by
  have hpool : ∀ {α : Type} (op : PoolM n α), Within Publishes (onPool op) := fun op =>
    (onPool_sameShape op).mono fun _ _ h => h.publishes
  refine within_get.bind fun g => ?_
  split
  · refine within_get.bind fun _ => (within_check _ _).bind fun _ => ?_
    refine (within_expect _ _).bind fun _ => within_ite ((hpool _).bind fun _ => within_pure _) ?_
    exact within_ite (within_pure _) (hpool _)
  · exact cacheTail_publishes k req numTokens

theorem queueAlignedCow_publishes (numTokens before after : ℕ) :
    Within Publishes (queueAlignedCow k r numTokens before after : ManagerM n _) := by
  refine within_get_bind fun g => ?_
  rw [ensures_onlyIf]
  refine ⟨fun _ => ?_, fun _ => refl_of Publishes g⟩
  rw [ensures_bind, ensures_expect]
  refine ⟨fun b hb => ?_, fun _ => refl_of Publishes g⟩
  rw [ensures_onlyIf]
  refine ⟨fun _ => ?_, fun _ => refl_of Publishes g⟩
  rw [modifyMamba]
  refine modifyPending_publishes r ?_ fun p q => ⟨rfl, rfl, fun hq => ⟨rfl, ?_⟩⟩
  · intro hnil
    simp [hnil] at hb
  · simp [hq]

/-- Every part of `cache_blocks` publishes, so the whole does. -/
theorem cacheBlocks_publishes (replay : ℕ) :
    Within Publishes
      (MambaManager.cacheBlocks k req numTokens retention replay : ManagerM n _) := by
  have hbase : Within Publishes
      (Base.cacheBlocks k req numTokens retention replay : ManagerM n _) := by
    refine (cacheBlocks_frame anyPool k req numTokens retention replay).mono fun g t h => ?_
    obtain ⟨counts, hcounts⟩ := h.same
    have hsame : SameShape g t := fun q => by
      rw [hcounts]
      exact ⟨rfl, rfl, rfl, rfl⟩
    exact hsame.publishes
  refine within_get.bind fun _ => hbase.bind fun _ => ?_
  refine within_get.bind fun _ => (cachePartialTailBlock_publishes k req _ _).bind fun _ => ?_
  refine Within.bind (within_modify fun g => ?_) fun _ => within_onlyIf _ ?_
  · exact refl_of Publishes g
  · refine (within_forM _ _ fun i _ => ?_).bind fun _ => queueAlignedCow_publishes k _ _ _ _
    exact (Mamba.recordPublished_same k req.requestId i).mono fun _ _ h =>
      (SameEntries.sameShape h).publishes
end

/-! ### Allocation -/

section
variable (k : ManagerConfig) (spec : MambaSpec) (r : RequestId)

def tableLength (g : Group n) (r : RequestId) : ℕ := (g.manager.reqToBlocks r).length

variable (numLocal numExternal : ℕ) (allocated : Bool) (cows : List (ℕ × Fin n))
  (hits : List (Fin n))

/-- Every pending copy takes one of the new blocks and keeps what each single
copy keeps. -/
theorem applyPendingCows_keeps {P : Group n → Prop} {newBlocks returned : List (Fin n)}
    (hmove : ∀ blockIdx source cow g, P g →
      Ensures (moveToCow k r blockIdx source cow) g (fun _ t => P t) (fun _ _ => True))
    (happly : ∀ blockIdx source, ∀ cow ∈ newBlocks, ∀ g, P g →
      Ensures (Base.applyCow r blockIdx source cow) g (fun _ t => P t) (fun _ _ => True))
    (hg : P g) :
    Ensures (applyPendingCows k r allocated cows newBlocks returned) g
      (fun res t => res.1.length + cows.length = newBlocks.length ∧ P t) (fun _ _ => True) := by
  induction cows generalizing newBlocks returned g with
  | nil => exact ⟨rfl, hg⟩
  | cons cow cows ih =>
    simp only [applyPendingCows, ensures_bind, ensures_expect]
    refine ⟨fun b hb => ?_, fun _ => trivial⟩
    obtain ⟨rest, rfl⟩ := head?_eq_some_iff.mp hb
    have hrest {returned : List (Fin n)} {t : Group n} (ht : P t) :
        Ensures (applyPendingCows k r allocated cows rest returned) t
          (fun res u => res.1.length + (cow :: cows).length = (b :: rest).length ∧ P u)
          (fun _ _ => True) := by
      refine (ih (fun blockIdx source c hc => happly blockIdx source c (mem_cons_of_mem b hc))
        ht).weaken ?_
      rintro res u ⟨hcount, hu⟩
      exact ⟨by simp only [length_cons]; omega, hu⟩
    rw [ensures_ite, ensures_bind, ensures_bind]
    exact ⟨fun _ => (hmove _ _ _ g hg).weaken (fun _ t ht => hrest ht),
      fun _ => (happly _ _ b mem_cons_self g hg).weaken (fun _ t ht => hrest ht)⟩

theorem applyPendingCows_tableLength (newBlocks returned : List (Fin n)) (g : Group n) :
    Ensures (applyPendingCows k r allocated cows newBlocks returned) g
      (fun res t => res.1.length + cows.length = newBlocks.length ∧
        tableLength t r = tableLength g r) (fun _ _ => True) := by
  refine applyPendingCows_keeps k r (P := fun t => tableLength t r = tableLength g r) _ _ ?_ ?_ rfl
  · intro blockIdx source cow t ht
    refine (Mamba.moveToCow_frame anyPool.toCopyFrame k r blockIdx source cow t).weaken
      (fun _ u hu => ?_)
    rw [tableLength, hu.same.1]
    exact ht
  · intro blockIdx source cow _ t ht
    simp only [Base.applyCow, ensures_bind, ensures_get, ensures_check, modifyManager,
      ensures_modify, onPool, ensures_zoom]
    refine ⟨fun _ => ⟨fun _ => ⟨fun _ => ?_, fun _ => trivial⟩, fun _ => trivial⟩, fun _ => trivial⟩
    simpa [tableLength, Manager.setBlocks] using ht

/-- A table that the allocation has served. -/
def Served (required : ℕ) (e : Entry n) : Prop :=
  required ≤ e.blocks.length ∧ e.partialHit = none ∧ e.alignedStateCow = none

/-- When the blocks are drawn, the table is as long as required and nothing is pending. -/
theorem drawBlocks_served (plan : AllocationPlan n) (prevBlockLen : ℕ) (g : Group n) :
    Ensures (drawBlocks k spec r plan prevBlockLen) g
      (fun _ t => Served plan.numRequiredBlocks (entry t.manager r)) (fun _ _ => True) := by
  simp only [drawBlocks, ensures_bind, ensures_get, ensures_check]
  refine ⟨fun _ => ?_, fun _ => trivial⟩
  rw [onPool, ensures_zoom]
  refine (getNewBlocks_length _ _).weaken (fun newBlocks p hlen => ?_)
  rw [modifyManager, ensures_modify]
  refine (applyPendingCows_tableLength k r _ _ _ _ _).weaken ?_
  rintro res t ⟨hcows, ht⟩
  simp only [markAllocated, modifyManager, modifyMamba, ensures_modify, ensures_pure]
  refine ⟨?_, by simp [entry, Manager.setPartialHit], by simp [entry]⟩
  have htable : tableLength t r = (g.manager.reqToBlocks r).length := ht
  simp only [tableLength] at htable
  simp [entry, Manager.setBlocks, Manager.setPartialHit, htable]
  omega

/-- An allocation serves its request whether or not blocks have to be drawn. -/
theorem allocateNewBlocks_served (numTokens main : ℕ) (g : Group n) :
    Ensures (MambaManager.allocateNewBlocks k spec r numTokens main) g
      (fun _ t => Served (allocationPlan k spec g.manager r numTokens main).numRequiredBlocks
        (entry t.manager r)) (fun _ _ => True) := by
  simp only [MambaManager.allocateNewBlocks, ensures_bind, ensures_get, ensures_ite]
  refine ⟨fun hdone => ?_, fun _ => Ensures.of_forall (fun _ t => ?_) fun _ _ => trivial⟩
  · simp only [markAllocated, modifyMamba, modifyManager, ensures_modify, ensures_pure]
    obtain ⟨hlen, hcows, -⟩ := hdone
    have hnone : g.manager.partialHitReqs r = none ∧
        g.manager.mamba.alignedStateCowReqs r = none := by
      simpa [allocationPlan] using hcows
    exact ⟨hlen, hnone.1, hnone.2⟩
  · exact drawBlocks_served k spec r _ _ t

theorem numRequiredBlocks_gt (p : Manager n) (numTokens : ℕ) {main : ℕ} (hmain : 0 < main) :
    spec.numSpeculativeBlocks + 1 ≤
      (allocationPlan k spec p r numTokens main).numRequiredBlocks := by
  have hpos : 0 < cdiv (alignTokensForLookahead k numTokens main).1 k.blockSize := by
    refine cdiv_pos ?_ k.blockSize_pos
    simp only [alignTokensForLookahead]
    split_ifs <;> omega
  simp only [allocationPlan]
  omega

theorem touchComputed_same : Within SameEntries (Base.touchComputed k hits) :=
  within_ite (onPool_same _) (within_check _ _)

theorem attachComputed_stateTable {p : Manager n} (hidle : (entry p r).allocated = false)
    (hhit : (entry p r).partialHit = none) (hcow : (entry p r).alignedStateCow = none)
    (null : Fin n) (skipped : ℕ) (hits : List (Fin n)) (numLocal : ℕ) :
    StateTable spec (entry (Base.attachComputed k p null r skipped hits numLocal) r) := by
  simp only [entry] at hidle hhit hcow
  unfold Base.attachComputed
  split
  · constructor <;> simp [entry, Manager.setNumCachedBlock, Manager.setBlocks, hidle, hhit, hcow]
  · next last hlast =>
    have hne : hits ≠ [] := by
      rintro rfl
      simp at hlast
    split_ifs <;> constructor <;> simp [entry, Manager.setNumCachedBlock, Manager.setBlocks,
      Manager.setPartialHit, hidle, hhit, hcow, hne]

theorem attachAlignedState_stateTable (hg : StateTable spec (entry g.manager r)) :
    Ensures (attachAlignedState k r numLocal numExternal) g
      (fun _ t => StateTable spec (entry t.manager r)) (fun _ _ => True) := by
  rw [attachAlignedState, ensures_bind, ensures_get, ensures_onlyIf]
  refine ⟨fun _ => ?_, fun _ => hg⟩
  dsimp only
  split
  · exact hg
  · next source hsource =>
    rw [ensures_onlyIf, modifyMamba, modifyManager, ensures_modify]
    refine ⟨fun _ => ⟨hg.allocated, fun _ hnil => ?_⟩, fun _ => hg⟩
    simp only [entry] at hnil
    simp [hnil] at hsource

/-- A request that only has hits is not allocated yet. -/
theorem addLocalComputedBlocks_stateTable (numLocal numExternal : ℕ)
    (hg : StateTable spec (entry g.manager r)) :
    Ensures (MambaManager.addLocalComputedBlocks k r hits numLocal numExternal) g
      (fun _ t => StateTable spec (entry t.manager r)) (fun _ _ => True) := by
  rw [MambaManager.addLocalComputedBlocks, ensures_bind, Base.addLocalComputedBlocks]
  simp only [ensures_bind, ensures_get, ensures_check]
  refine ⟨fun hempty => ?_, fun _ => trivial⟩
  have hidle : (entry g.manager r).allocated = false := by
    by_contra halloc
    have hlong := hg.allocated (by simpa using halloc)
    simp [entry, hempty] at hlong
  have hnone : (entry g.manager r).partialHit = none ∧
      (entry g.manager r).alignedStateCow = none := by
    have hclear := mt hg.pending (by simp [entry, hempty])
    simpa using hclear
  refine (touchComputed_same k _ g).weaken (fun _ t ht => ?_)
  rw [modifyManager, ensures_modify]
  refine attachAlignedState_stateTable k spec r numLocal numExternal ?_
  refine attachComputed_stateTable k spec r ?_ ?_ ?_ _ _ _ _
  · rw [ht r]
    exact hidle
  · rw [ht r]
    exact hnone.1
  · rw [ht r]
    exact hnone.2

theorem allocateExternalComputedBlocks_stateTable (hg : StateTable spec (entry g.manager r)) :
    Ensures (Base.allocateExternalComputedBlocks k r numLocal numExternal) g
      (fun _ t => StateTable spec (entry t.manager r)) (fun _ _ => True) := by
  rw [Base.allocateExternalComputedBlocks, ensures_bind, ensures_get, ensures_onlyIf]
  refine ⟨fun _ => ?_, fun _ => hg⟩
  simp only [ensures_discard, Base.extendBlocks, ensures_bind, onPool, ensures_zoom, modifyManager,
    ensures_modify, ensures_pure]
  refine Ensures.of_forall (fun blocks p => ⟨fun ha => ?_, fun hp hnil => ?_⟩) fun _ _ => trivial
  · have hlong := hg.allocated ha
    simp only [entry, Manager.recordBlocks, Manager.setBlocks, update_self,
      length_append] at hlong ⊢
    omega
  · refine hg.pending hp ?_
    simp only [entry, Manager.recordBlocks, Manager.setBlocks, update_self,
      append_eq_nil_iff] at hnil
    exact hnil.1

theorem popBlocksForFree_stateTable (g : Group n) : Ensures (MambaManager.popBlocksForFree r) g
      (fun _ t => StateTable spec (entry t.manager r)) (fun _ _ => True) := by
  rw [MambaManager.popBlocksForFree, ensures_bind, ensures_get]
  simp only [ensures_bind, modifyMamba, modifyManager, ensures_modify]
  refine ((within_onlyIf _ (onPool_same _)) _).weaken (fun _ t ht => ?_)
  have hr := ht r
  simp only [entry, update_self, Entry.mk.injEq] at hr
  simp only [Base.popBlocksForFree, ensures_bind, ensures_get, modifyManager, ensures_modify,
    ensures_pure]
  constructor <;> simp [entry, Manager.setPartialHit, Manager.setNumCachedBlock,
    Manager.setBlocks, hr]
end

/-- An operation for one request has to be looked at for this request only. -/
theorem mambaInv_update {k : ManagerConfig} {spec : MambaSpec} {slots' : Ledger}
    {r : RequestId} (hk : k.kind = .mamba spec) (hframe : OnlyTouches r g t)
    (hr : StateTable spec (entry t.manager r)) (hg : MambaInv k slots g.manager) :
    MambaInv k slots' t.manager := by
  intro spec' hk' q
  rw [hk] at hk'
  cases hk'
  by_cases hq : q = r
  · subst hq
    exact hr
  · rw [hframe q hq]
    exact hg spec hk q

theorem ensures_of_mamba {α : Type} {k : ManagerConfig} {op : ManagerM n α}
    (h : ∀ spec, k.kind = .mamba spec →
      Ensures op g (fun _ t => MambaInv k slots t.manager) (fun _ _ => True)) :
    Ensures op g (fun _ t => MambaInv k slots t.manager) (fun _ _ => True) := by
  by_cases hk : ∃ spec, k.kind = .mamba spec
  · obtain ⟨spec, hk⟩ := hk
    exact h spec hk
  · exact .of_forall (fun _ _ spec h => absurd ⟨spec, h⟩ hk) fun _ _ => trivial

theorem mambaInv_run : RunInvariant n MambaInv fun k slots _ => MambaInv k slots where
  init k spec _ q := ⟨fun h => by simp [entry, initManager] at h,
    fun h => by simp [entry, initManager] at h⟩
  skip k slots r processed g hg :=
    (manager_removeSkippedBlocks_frame anyPool.freeBlocks k r processed g).weaken
      (fun _ _ h => (Trims.sameShape h.same).mambaInv hg)
  predict k slots r numTokens hits total numLocal main cap g hg := by
    refine (manager_getNumBlocksToAllocate_frame (S := Anyhow) k r numTokens hits total numLocal
      main cap g).weaken (fun _ t h => ?_)
    obtain ⟨_, hplan⟩ := h.same
    have hsame : SameShape g t := fun q => by
      rw [hplan]
      exact ⟨rfl, rfl, rfl, rfl⟩
    exact hsame.mambaInv hg
  enter k slots r g hg := hg
  addLocal k slots r hits numLocal numExternal g hg := ensures_of_mamba fun spec hk => by
    simp only [Manager.addLocalComputedBlocks, hk]
    exact ((Mamba.addLocalComputedBlocks_frame k r anyPool hits numLocal numExternal g).and
      (addLocalComputedBlocks_stateTable k spec r hits numLocal numExternal (hg spec hk r))).weaken
      (fun _ _ h => mambaInv_update hk h.1.other h.2 hg)
  allocateExternal k slots r numLocal numExternal g hg := ensures_of_mamba fun spec hk => by
    simp only [Manager.allocateExternalComputedBlocks, hk]
    exact ((allocateExternalComputedBlocks_frame anyPool k r numLocal numExternal g).and
      (allocateExternalComputedBlocks_stateTable k spec r numLocal numExternal
        (hg spec hk r))).weaken
      (fun _ _ h => mambaInv_update hk h.1.other h.2 hg)
  allocateNew k slots r numTokens main g hmain hg := ensures_of_mamba fun spec hk => by
    simp only [Manager.allocateNewBlocks, hk]
    refine ((Mamba.allocateNewBlocks_frame k spec r anyPool numTokens main g).and
      (allocateNewBlocks_served k spec r numTokens main g)).weaken ?_
    rintro _ t ⟨hframe, hlen, hhit, hcow⟩
    refine mambaInv_update hk hframe.other ⟨fun _ => ?_, fun hp => ?_⟩ hg
    · exact (numRequiredBlocks_gt k spec r g.manager numTokens hmain).trans hlen
    · simp [hhit, hcow] at hp
  cache k slots r numTokens retention replay g hg := ensures_of_mamba fun spec hk => by
    simp only [Manager.cacheBlocks, hk]
    exact (cacheBlocks_publishes k r numTokens retention replay g).weaken
      (fun _ _ h => h.mambaInv hg)
  free k slots r g hg := ensures_of_mamba fun spec hk => by
    simp only [Manager.free, Manager.popBlocksForFree, hk, ensures_bind]
    refine ((Mamba.popBlocksForFree_frame r anyPool g).and
      (popBlocksForFree_stateTable spec r g)).weaken ?_
    rintro _ t ⟨hframe, hr⟩
    have ht : MambaInv k (Function.update slots r 0) t.manager :=
      mambaInv_update hk hframe.other hr hg
    exact (onPool_sameShape _ t).weaken (fun _ _ h => h.mambaInv ht)
  stepStarts k slots g hg :=
    (manager_newStepStarts_same k g).weaken
      (fun _ _ h => (SameEntries.sameShape h.2).mambaInv hg)

end Vllm.MambaTables
