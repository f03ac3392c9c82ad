import Vllm.KVCacheManager

/-!
Runs of the KV cache manager. Between two operations the pool may be any pool,
so what a run keeps is what each manager keeps on its own, whatever other
requests do to the pool. The ledger of a run records for how many tokens the
last allocation of each request gave slots; the scheduler never counts more
tokens as computed.
-/
namespace Vllm.KVCacheRuns

open Outcome Pool CacheManagers KVCacheManager

variable {n m : ℕ}

def initManager : Manager n :=
  { reqToBlocks := fun _ => []
    numCachedBlock := fun _ => none
    partialHitReqs := fun _ => none
    pendingCowCopies := []
    newBlockIds := []
    mamba :=
      { cachedBlocksThisStep := []
        lastStateBlockIdx := fun _ => none
        numRetiredBlocks := fun _ => 0
        allocatedBlockReqs := fun _ => false
        checkpoints := fun _ => none
        producerBoundaryStateReqs := fun _ => none
        alignedStateCowReqs := fun _ => none
        freedBoundaryBlocks := fun _ => []
        pendingBoundaryStateOffloads := [] } }

abbrev Ledger := RequestId → ℕ

/-- What the scheduler promises when it calls `allocate_slots`: computed tokens
have slots, and hits or external tokens come only with a request that holds
nothing yet. -/
structure Promised (cfg : Config m) (s : CacheState n m) (slots : Ledger) (c : SlotCall n m) :
    Prop where
  computed : c.request.numComputedTokens ≤ slots c.request.requestId
  total : c.allComputedTokens ≤ cfg.maxModelLen
  noHits : c.newComputedBlocks = none → c.numNewComputedTokens = 0
  firstTime : c.numNewComputedTokens ≠ 0 ∨ c.numExternalComputedTokens ≠ 0 →
    ∀ i, (s.managers i).reqToBlocks c.request.requestId = [] ∧
      (s.managers i).numCachedBlock c.request.requestId = none

inductive Reachable (cfg : Config m) : CacheState n m → Ledger → Prop
  | init (pool : BlockPool n) : Reachable cfg ⟨pool, fun _ => initManager⟩ fun _ => 0
  | otherPool {s slots} (pool : BlockPool n) (hs : Reachable cfg s slots) :
      Reachable cfg { s with pool } slots
  | allocated {s slots c t} (hs : Reachable cfg s slots) (hc : Promised cfg s slots c)
      (hrun : (allocateSlots cfg c).run s = .ok true t) :
      Reachable cfg t (Function.update slots c.request.requestId (c.numTokensNeedSlot cfg))
  | refused {s slots c t} (hs : Reachable cfg s slots) (hc : Promised cfg s slots c)
      (hrun : (allocateSlots cfg c).run s = .ok false t) : Reachable cfg t slots
  | freed {s slots t} (r : RequestId) (hs : Reachable cfg s slots)
      (hrun : (Coordinator.free cfg r).run s = .ok ⟨⟩ t) :
      Reachable cfg t (Function.update slots r 0)
  | cached {s slots t} (r : CacheRequest) (numComputedTokens : ℕ) (hs : Reachable cfg s slots)
      (hrun : (Coordinator.cacheBlocks cfg r numComputedTokens).run s = .ok ⟨⟩ t) :
      Reachable cfg t slots
  | skipped {s slots t} (r : RequestId) (processedComputedTokens : ℕ)
      (hs : Reachable cfg s slots)
      (hrun : (Coordinator.removeSkippedBlocks cfg r processedComputedTokens).run s = .ok ⟨⟩ t) :
      Reachable cfg t slots
  | stepStarted {s slots t} (hs : Reachable cfg s slots)
      (hrun : (Coordinator.newStepStarts cfg).run s = .ok ⟨⟩ t) : Reachable cfg t slots

/-! ### Loops over the groups -/

@[simp]
theorem CacheState.setGroup_group_self (s : CacheState n m) (i : Fin m) :
    s.setGroup i (s.group i) = s := by
  simp [CacheState.setGroup, CacheState.group]

variable {P : Fin m → Manager n → Prop} {s : CacheState n m}

/-- What every group's operation does to its own manager, the loop does to all
of them. -/
theorem forGroups_ensures {op : Fin m → ManagerM n PUnit} {P Q : Fin m → Manager n → Prop}
    (hop : ∀ i g, P i g.manager → Ensures (op i) g (fun _ t => Q i t.manager) (fun _ _ => True))
    (hs : ∀ i, P i (s.managers i)) :
    Ensures (forGroups op) s (fun _ t => ∀ i, Q i (t.managers i)) (fun _ _ => True) := by
  -- induction on the groups still to come, those before them are done
  suffices hloop : ∀ l : List (Fin m), l.Nodup → ∀ s : CacheState n m,
      (∀ i, if i ∈ l then P i (s.managers i) else Q i (s.managers i)) →
      Ensures (forM l fun i => onGroup i (op i)) s (fun _ t => ∀ i, Q i (t.managers i))
        (fun _ _ => True) by
    exact hloop _ (List.nodup_finRange m) s fun i => by simpa using hs i
  intro l hl
  induction l with
  | nil =>
    intro s hs
    rw [List.forM_nil, ensures_pure]
    simpa using hs
  | cons j l ih =>
    intro s hs
    obtain ⟨hj, hl⟩ := List.nodup_cons.mp hl
    rw [List.forM_cons, ensures_bind, onGroup, ensures_zoom]
    have hstep := hop j (s.group j) (by simpa [CacheState.group] using hs j)
    refine hstep.weaken ?_
    intro _ g hg
    refine ih hl _ fun i => ?_
    by_cases hij : i = j
    · subst hij
      simpa [hj, CacheState.setGroup] using hg
    · have hi := hs i
      simpa [CacheState.setGroup, hij] using hi

theorem sumLoop_ensures {op : Fin m → ManagerM n ℤ}
    (hop : ∀ i g, P i g.manager → Ensures (op i) g (fun _ t => P i t.manager) (fun _ _ => True))
    (l : List (Fin m)) (hs : ∀ i, P i (s.managers i)) :
    Ensures (Coordinator.sumLoop op l) s (fun _ t => ∀ i, P i (t.managers i))
      (fun _ _ => True) := by
  induction l generalizing s with
  | nil => exact hs
  | cons j l ih =>
    rw [Coordinator.sumLoop, ensures_bind, onGroup, ensures_zoom]
    refine (hop j (s.group j) (hs j)).weaken ?_
    intro _ g hg
    rw [ensures_bind]
    refine (ih ?_).weaken (fun _ _ ht => ht)
    intro i
    by_cases hij : i = j
    · subst hij
      simpa [CacheState.setGroup] using hg
    · simpa [CacheState.setGroup, hij] using hs i

/-- What the predictions and the removal of skipped blocks keep, the admission
check keeps. -/
theorem admitSlots_ensures {cfg : Config m} {c : SlotCall n m}
    (hskip : ∀ i processed (g : Group n), P i g.manager →
      Ensures (Manager.removeSkippedBlocks (cfg.groups i) c.request.requestId processed) g
        (fun _ t => P i t.manager) (fun _ _ => True))
    (hpredict : ∀ i numTokens total main cap (g : Group n), P i g.manager →
      Ensures (Manager.getNumBlocksToAllocate (cfg.groups i) c.request.requestId numTokens
        (c.newComputedBlockList i) total c.numLocalComputedTokens main cap) g
        (fun _ t => P i t.manager) (fun _ _ => True)) (hs : ∀ i, P i (s.managers i)) :
    Ensures (admitSlots cfg c) s (fun _ t => ∀ i, P i (t.managers i)) (fun _ _ => True) := by
  have hsum : ∀ numTokens total main cap {t : CacheState n m}, (∀ i, P i (t.managers i)) →
      Ensures (Coordinator.getNumBlocksToAllocate cfg c.request.requestId numTokens
        c.newComputedBlockList total c.numLocalComputedTokens main cap) t
        (fun _ u => ∀ i, P i (u.managers i)) (fun _ _ => True) :=
    fun numTokens total main cap _ ht =>
      sumLoop_ensures (fun i g hg => hpredict i numTokens total main cap g hg) _ ht
  have hfits : Ensures (fullSequenceFits cfg c) s (fun _ t => ∀ i, P i (t.managers i))
      (fun _ _ => True) := by
    rw [fullSequenceFits, ensures_ite]
    refine ⟨fun _ => ?_, fun _ => hs⟩
    rw [ensures_bind]
    exact (hsum _ _ _ _ hs).weaken (fun _ t ht => ht)
  simp only [admitSlots, ensures_bind, ensures_check]
  refine ⟨fun _ => hfits.weaken ?_, fun _ => trivial⟩
  intro fits t ht
  rw [ensures_ite]
  refine ⟨fun _ => ?_, fun _ => ht⟩
  rw [ensures_bind]
  refine (forGroups_ensures (fun i g hg => hskip i _ g hg) ht).weaken (fun _ u hu => ?_)
  rw [ensures_bind]
  refine (hsum _ _ _ _ hu).weaken (fun _ v hv => ?_)
  rw [ensures_bind, ensures_get, ensures_ite]
  exact ⟨fun _ => hv, fun _ => hv⟩

/-! ### Invariants of the managers -/

/-- An invariant `I` of the managers, by configuration, with the weaker `Mid`
that holds inside the allocation for request `r`. -/
structure RunInvariant (n : ℕ) (I : ManagerConfig → Ledger → Manager n → Prop)
    (Mid : ManagerConfig → Ledger → RequestId → Manager n → Prop) : Prop where
  init : ∀ k, I k (fun _ => 0) initManager
  skip : ∀ k slots r processed (g : Group n), I k slots g.manager →
    Ensures (Manager.removeSkippedBlocks k r processed) g (fun _ t => I k slots t.manager)
      (fun _ _ => True)
  predict : ∀ k slots r numTokens hits total numLocal main cap (g : Group n), I k slots g.manager →
    Ensures (Manager.getNumBlocksToAllocate k r numTokens hits total numLocal main cap) g
      (fun _ t => I k slots t.manager) (fun _ _ => True)
  enter : ∀ k slots r g, I k slots g → Mid k slots r g
  addLocal : ∀ k slots r hits numLocal numExternal (g : Group n), Mid k slots r g.manager →
    Ensures (Manager.addLocalComputedBlocks k r hits numLocal numExternal) g
      (fun _ t => Mid k slots r t.manager) (fun _ _ => True)
  allocateExternal : ∀ k slots r numLocal numExternal (g : Group n), Mid k slots r g.manager →
    Ensures (Manager.allocateExternalComputedBlocks k r numLocal numExternal) g
      (fun _ t => Mid k slots r t.manager) (fun _ _ => True)
  allocateNew : ∀ k slots r numTokens main (g : Group n), 0 < main → Mid k slots r g.manager →
    Ensures (Manager.allocateNewBlocks k r numTokens main) g
      (fun _ t => I k (Function.update slots r numTokens) t.manager) (fun _ _ => True)
  cache : ∀ k slots r numTokens retention replay (g : Group n), I k slots g.manager →
    Ensures (Manager.cacheBlocks k r numTokens retention replay) g
      (fun _ t => I k slots t.manager) (fun _ _ => True)
  free : ∀ k slots r (g : Group n), I k slots g.manager →
    Ensures (Manager.free k r) g (fun _ t => I k (Function.update slots r 0) t.manager)
      (fun _ _ => True)
  stepStarts : ∀ k slots (g : Group n), I k slots g.manager →
    Ensures (Manager.newStepStarts k) g (fun _ t => I k slots t.manager) (fun _ _ => True)

variable {I : ManagerConfig → Ledger → Manager n → Prop}
  {Mid : ManagerConfig → Ledger → RequestId → Manager n → Prop}
  {cfg : Config m} {s : CacheState n m} {slots : Ledger} {c : SlotCall n m}

variable (h : RunInvariant n I Mid)
include h

theorem RunInvariant.admitSlots (hs : ∀ i, I (cfg.groups i) slots (s.managers i)) :
    Ensures (admitSlots cfg c) s (fun _ t => ∀ i, I (cfg.groups i) slots (t.managers i))
      (fun _ _ => True) :=
  admitSlots_ensures (P := fun i => I (cfg.groups i) slots)
    (fun _ processed g hg => h.skip _ slots _ processed g hg)
    (fun _ numTokens total main cap g hg =>
      h.predict _ slots _ numTokens _ total _ main cap g hg) hs

/-- Every group passes through the weaker property and has the invariant again when its blocks are
drawn. -/
theorem RunInvariant.takeBlocks (hs : ∀ i, I (cfg.groups i) slots (s.managers i))
    (hmain : 0 < c.numTokensMainModel cfg) :
    Ensures (takeBlocks cfg c) s
      (fun _ t => ∀ i, I (cfg.groups i)
        (Function.update slots c.request.requestId (c.numTokensNeedSlot cfg))
        (t.managers i)) (fun _ _ => True) := by
  set r := c.request.requestId with hr
  have hnew : ∀ {t : CacheState n m}, (∀ i, Mid (cfg.groups i) slots r (t.managers i)) →
      Ensures (Coordinator.allocateNewBlocks cfg r (c.numTokensNeedSlot cfg)
        (c.numTokensMainModel cfg)) t
        (fun _ u => ∀ i, I (cfg.groups i) (Function.update slots r (c.numTokensNeedSlot cfg))
          (u.managers i)) (fun _ _ => True) := by
    intro t ht
    refine forGroups_ensures (P := fun i => Mid (cfg.groups i) slots r) (fun i g hg => ?_) ht
    rw [ensures_discard]
    exact h.allocateNew _ slots r _ _ g hmain hg
  have hmid : ∀ i, Mid (cfg.groups i) slots r (s.managers i) := fun i => h.enter _ slots r _ (hs i)
  rw [KVCacheManager.takeBlocks, ensures_bind, ensures_onlyIf]
  refine ⟨fun _ => ?_, fun _ => hnew hmid⟩
  rw [Coordinator.allocateNewComputedBlocks, ensures_bind, ensures_get, ensures_ite, ensures_check]
  refine ⟨fun _ => ⟨fun _ => hnew hmid, fun _ => trivial⟩, fun _ => ?_⟩
  rw [ensures_bind]
  have hlocal := forGroups_ensures (P := fun i => Mid (cfg.groups i) slots r)
    (Q := fun i => Mid (cfg.groups i) slots r)
    (fun i g hg => h.addLocal _ slots r (c.newComputedBlockList i) c.numLocalComputedTokens
      c.numExternalComputedTokens g hg) hmid
  refine hlocal.weaken (fun _ t ht => ?_)
  rw [ensures_onlyIf]
  refine ⟨fun _ => ?_, fun _ => hnew ht⟩
  have hext := forGroups_ensures (P := fun i => Mid (cfg.groups i) slots r)
    (Q := fun i => Mid (cfg.groups i) slots r)
    (fun i g hg => h.allocateExternal _ slots r c.numLocalComputedTokens
      c.numExternalComputedTokens g hg) ht
  exact hext.weaken (fun _ u hu => hnew hu)

theorem RunInvariant.cacheBlocks (r : CacheRequest) (k : ℕ)
    (hs : ∀ i, I (cfg.groups i) slots (s.managers i)) :
    Ensures (Coordinator.cacheBlocks cfg r k) s
      (fun _ t => ∀ i, I (cfg.groups i) slots (t.managers i))
      (fun _ _ => True) :=
  forGroups_ensures (P := fun i => I (cfg.groups i) slots)
    (fun _ g hg => h.cache _ slots r _ cfg.retentionInterval _ g hg) hs

/-- One `allocate_slots` keeps the invariant in every group. -/
theorem RunInvariant.allocateSlots (hs : ∀ i, I (cfg.groups i) slots (s.managers i))
    (hmain : c.numNewTokens ≠ 0 ∨ c.numExternalComputedTokens ≠ 0 → 0 < c.numTokensMainModel cfg) :
    Ensures (allocateSlots cfg c) s
      (fun taken t => ∀ i, I (cfg.groups i) (if taken then
        Function.update slots c.request.requestId (c.numTokensNeedSlot cfg) else slots)
        (t.managers i)) (fun _ _ => True) := by
  have hguard : Ensures (KVCacheManager.admitSlots cfg c) s
      (fun _ _ => c.numNewTokens ≠ 0 ∨ c.numExternalComputedTokens ≠ 0) (fun _ _ => True) := by
    rw [KVCacheManager.admitSlots, ensures_bind, ensures_check]
    refine ⟨fun hc => ?_, fun _ => trivial⟩
    unfold Ensures
    split
    · exact hc
    · trivial
  rw [KVCacheManager.allocateSlots, ensures_bind]
  refine (h.admitSlots hs |>.and hguard).weaken ?_
  rintro o t ⟨ht, hc⟩
  cases o with
  | none => exact ht
  | some k =>
    dsimp only
    rw [ensures_bind]
    refine (h.takeBlocks ht (hmain hc)).weaken (fun _ u hu => ?_)
    rw [ensures_bind, commitBlocks, ensures_onlyIf]
    refine ⟨fun _ => ?_, fun _ => hu⟩
    exact (h.cacheBlocks _ _ hu).weaken (fun _ v hv => hv)

omit h in
theorem Promised.main_pos (hc : Promised cfg s slots c)
    (hnew : c.numNewTokens ≠ 0 ∨ c.numExternalComputedTokens ≠ 0) :
    0 < c.numTokensMainModel cfg := by
  unfold SlotCall.numTokensMainModel SlotCall.totalComputedTokens
  rw [min_eq_left hc.total]
  unfold SlotCall.allComputedTokens
  omega

/-- The invariant holds after any calls of the scheduler. -/
theorem RunInvariant.reachable (hs : Reachable cfg s slots) :
    ∀ i, I (cfg.groups i) slots (s.managers i) := by
  induction hs with
  | init pool => exact fun i => h.init _
  | otherPool pool _ ih => exact ih
  | allocated _ hc hrun ih =>
    have hslots := (h.allocateSlots ih hc.main_pos).of_ok hrun
    simpa using hslots
  | refused _ hc hrun ih =>
    have hslots := (h.allocateSlots ih hc.main_pos).of_ok hrun
    simpa using hslots
  | freed r _ hrun ih =>
    exact (forGroups_ensures (P := fun i => I (cfg.groups i) _) (fun _ g hg => h.free _ _ r g hg)
      ih).of_ok hrun
  | cached r k _ hrun ih => exact (h.cacheBlocks r k ih).of_ok hrun
  | skipped r k _ hrun ih =>
    exact (forGroups_ensures (P := fun i => I (cfg.groups i) _) (fun _ g hg => h.skip _ _ r k g hg)
      ih).of_ok hrun
  | stepStarted _ hrun ih =>
    exact (forGroups_ensures (P := fun i => I (cfg.groups i) _)
      (fun _ g hg => h.stepStarts _ _ g hg) ih).of_ok hrun

end Vllm.KVCacheRuns
