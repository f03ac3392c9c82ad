import Vllm.ManagerFrames
import Vllm.KVCacheRuns

/-!
One group in the operations of the coordinator. The managers share the pool and
nothing else, so a group sees the loops over all groups as its own operation
between changes of the pool.
-/
namespace Vllm.ManagerPools

open Outcome Pool CacheManagers KVCacheManager KVCacheRuns ManagerFrames List

variable {n m : ℕ}

/-! ### One group in the loops over all groups -/

section
variable {R : BlockPool n → BlockPool n → Prop} {i : Fin m} {P Q : Group n → Prop}
  {s : CacheState n m}

/-- A property of groups that outlasts the related changes of the pool. -/
def Stable (R : BlockPool n → BlockPool n → Prop) (P : Group n → Prop) : Prop :=
  ∀ g p, R g.pool p → P g → P { g with pool := p }

/-- An operation of another group reaches group `i` only through the pool. -/
theorem onGroup_other {α : Type} {op : ManagerM n α} {j : Fin m} (hj : j ≠ i)
    (hop : Within (OnPools R) op) (hP : Stable R P) (hs : P (s.group i)) :
    Ensures (onGroup j op) s (fun _ t => P (t.group i)) (fun _ t => P (t.group i)) := by
  rw [onGroup, ensures_zoom]
  have hgroup (g : Group n) (hg : R s.pool g.pool) : P ((s.setGroup j g).group i) := by
    have hmanager : (s.setGroup j g).managers i = s.managers i := by
      simp [CacheState.setGroup, hj.symm]
    rw [CacheState.group, hmanager]
    exact hP (s.group i) g.pool hg hs
  exact (hop (s.group j)).mono (fun _ t ht => hgroup t ht) (fun _ t ht => hgroup t ht)

/-- What the operation of a group does is seen in that group. -/
theorem onGroup_self {α : Type} {op : ManagerM n α} {Q : α → Group n → Prop}
    (hop : Ensures op (s.group i) Q (fun _ _ => True)) :
    Ensures (onGroup i op) s (fun a t => Q a (t.group i)) (fun _ _ => True) := by
  rw [onGroup, ensures_zoom]
  refine hop.weaken (fun a t ht => ?_)
  simpa [CacheState.setGroup, CacheState.group] using ht

/-- Group `i` goes through its own operation once. -/
theorem forGroups_focus {op : Fin m → ManagerM n PUnit} (i : Fin m)
    (hother : ∀ j, j ≠ i → Within (OnPools R) (op j)) (hP : Stable R P) (hQ : Stable R Q)
    (hop : ∀ g, P g → Ensures (op i) g (fun _ t => Q t) (fun _ _ => True))
    (hs : P (s.group i)) :
    Ensures (forGroups op) s (fun _ t => Q (t.group i)) (fun _ _ => True) := by
  -- induction on the groups still to come, `i` is among them or done
  suffices hloop : ∀ l : List (Fin m), l.Nodup → ∀ s : CacheState n m,
      (if i ∈ l then P (s.group i) else Q (s.group i)) →
      Ensures (forM l fun j => onGroup j (op j)) s (fun _ t => Q (t.group i))
        (fun _ _ => True) by
    exact hloop _ (nodup_finRange m) s (by simpa using hs)
  intro l hl
  induction l with
  | nil =>
    intro s hs
    simpa using hs
  | cons j l ih =>
    intro s hs
    obtain ⟨hj, htail⟩ := nodup_cons.mp hl
    rw [forM_cons, ensures_bind]
    by_cases hij : i = j
    · subst hij
      rw [if_pos mem_cons_self] at hs
      refine (onGroup_self (hop _ hs)).weaken (fun _ t ht => ih htail t ?_)
      rwa [if_neg hj]
    · have hji : j ≠ i := fun h => hij h.symm
      simp only [mem_cons, hij, false_or] at hs
      by_cases hi : i ∈ l
      · rw [if_pos hi] at hs
        refine (onGroup_other hji (hother j hji) hP hs).weaken (fun _ t ht => ih htail t ?_)
        rwa [if_pos hi]
      · rw [if_neg hi] at hs
        refine (onGroup_other hji (hother j hji) hQ hs).weaken (fun _ t ht => ih htail t ?_)
        rwa [if_neg hi]

theorem ensures_sumLoop (op : Fin m → ManagerM n ℤ) (l : List (Fin m)) (s : CacheState n m)
    (Q : CacheState n m → Prop) (E : Failure → CacheState n m → Prop) :
    Ensures (Coordinator.sumLoop op l) s (fun _ t => Q t) E ↔
      Ensures (forM l fun i => onGroup i (discard (op i))) s (fun _ t => Q t) E := by
  induction l generalizing s with
  | nil => exact Iff.rfl
  | cons i l ih =>
    simp only [Coordinator.sumLoop, forM_cons, ensures_bind, ensures_pure, ih, onGroup,
      ensures_zoom, ensures_discard]

theorem ensures_gatherLoop (op : Fin m → ManagerM n (List (Fin n))) (l : List (Fin m))
    (s : CacheState n m) (Q : CacheState n m → Prop) (E : Failure → CacheState n m → Prop) :
    Ensures (Coordinator.gatherLoop op l) s (fun _ t => Q t) E ↔
      Ensures (forM l fun i => onGroup i (discard (op i))) s (fun _ t => Q t) E := by
  induction l generalizing s with
  | nil => exact Iff.rfl
  | cons i l ih =>
    simp only [Coordinator.gatherLoop, forM_cons, ensures_bind, ensures_pure, ih, onGroup,
      ensures_zoom, ensures_discard]

/-- In a loop over the groups one group is looked at, and the others only change the pool. -/
theorem sumLoop_focus {op : Fin m → ManagerM n ℤ} (i : Fin m)
    (hother : ∀ j, j ≠ i → Within (OnPools R) (op j)) (hP : Stable R P) (hQ : Stable R Q)
    (hop : ∀ g, P g → Ensures (op i) g (fun _ t => Q t) (fun _ _ => True))
    (hs : P (s.group i)) :
    Ensures (Coordinator.sumLoop op (List.finRange m)) s (fun _ t => Q (t.group i))
      (fun _ _ => True) := by
  rw [ensures_sumLoop]
  exact forGroups_focus i (fun j hj => within_discard (hother j hj)) hP hQ
    (fun g hg => (ensures_discard _ _ _ _).mpr (hop g hg)) hs
end

/-! ### One group in an allocation -/

theorem admitSlots_tracked (cfg : Config m) (c : SlotCall n m) (s : CacheState n m) :
    Ensures (admitSlots cfg c) s
      (fun _ t => ∀ i, (t.managers i).numCachedBlock = (s.managers i).numCachedBlock)
      (fun _ _ => True) := by
  refine admitSlots_ensures (P := fun i g => g.numCachedBlock = (s.managers i).numCachedBlock)
    (fun i processed g hg => ?_) (fun i numTokens total main cap g hg => ?_) fun _ => rfl
  · exact (manager_removeSkippedBlocks_frame anyPool.freeBlocks _ _ processed g).weaken
      (fun _ _ h => h.same.numCachedBlock.trans hg)
  · refine (manager_getNumBlocksToAllocate_frame (S := Anyhow) _ _ numTokens _ total _ main cap
      g).weaken (fun _ t h => ?_)
    obtain ⟨_, hplan⟩ := h.same
    rw [hplan]
    exact hg

/-- What one group goes through in `allocate_slots`: the removal of skipped
blocks, the prediction, the hits and loaded blocks of a first allocation, the
new blocks. A running request has neither hits nor loaded blocks. Up to the
prediction the pool changes by `S` only. -/
structure Stages (S R : BlockPool n → BlockPool n → Prop) (cfg : Config m) (c : SlotCall n m)
    (i : Fin m) (Before Skipped Predicted Attached Drawn : Group n → Prop) : Prop where
  stableBefore : Stable S Before ∧ Stable S Skipped ∧ Stable S Predicted
  stable : Stable R Predicted ∧ Stable R Attached ∧ Stable R Drawn
  fullSequence : ∀ numTokens g t j,
    (Manager.getNumBlocksToAllocate (cfg.groups i) c.request.requestId numTokens
      (c.newComputedBlockList i) (c.totalComputedTokens cfg) c.numLocalComputedTokens numTokens
      true).run g = .ok j t → Before g → Before t
  skip : ∀ g, Before g → Ensures (Manager.removeSkippedBlocks (cfg.groups i) c.request.requestId
    (c.totalComputedTokens cfg - c.request.numInFlightTokens)) g (fun _ t => Skipped t)
    (fun _ _ => True)
  predict : ∀ g t j, (Manager.getNumBlocksToAllocate (cfg.groups i) c.request.requestId
    (c.numTokensNeedSlot cfg) (c.newComputedBlockList i) c.allComputedTokens
    c.numLocalComputedTokens (c.numTokensMainModel cfg) false).run g = .ok j t →
    Skipped g → Predicted t
  addLocal : c.newComputedBlocks.isSome ∨ 0 < c.numExternalComputedTokens → ∀ g, Predicted g →
    Ensures (Manager.addLocalComputedBlocks (cfg.groups i) c.request.requestId
      (c.newComputedBlockList i) c.numLocalComputedTokens c.numExternalComputedTokens) g
      (fun _ t => Attached t) (fun _ _ => True)
  external : ∀ g, Attached g → Ensures (Manager.allocateExternalComputedBlocks (cfg.groups i)
    c.request.requestId c.numLocalComputedTokens c.numExternalComputedTokens) g
    (fun _ t => Attached t) (fun _ _ => True)
  running : c.numNewComputedTokens = 0 → c.numExternalComputedTokens = 0 → ∀ g, Predicted g →
    Ensures (Manager.allocateNewBlocks (cfg.groups i) c.request.requestId (c.numTokensNeedSlot cfg)
      (c.numTokensMainModel cfg)) g (fun _ t => Drawn t) (fun _ _ => True)
  first : ∀ g, Attached g →
    Ensures (Manager.allocateNewBlocks (cfg.groups i) c.request.requestId (c.numTokensNeedSlot cfg)
      (c.numTokensMainModel cfg)) g (fun _ t => Drawn t) (fun _ _ => True)
  cache : ∀ numTokens g, Drawn g → Ensures (Manager.cacheBlocks (cfg.groups i) c.request numTokens
    cfg.retentionInterval (Coordinator.getReplayBoundary cfg c.request.numPromptTokens)) g
    (fun _ t => Drawn t) (fun _ _ => True)

variable {S R : BlockPool n → BlockPool n → Prop} {cfg : Config m} {c : SlotCall n m} {i : Fin m}
  {Before Skipped Predicted Attached Drawn : Group n → Prop} {s : CacheState n m}

theorem predict_focus [IsPreorder (BlockPool n) S] {P Q : Group n → Prop} (hP : Stable S P)
    (hQ : Stable S Q) {numTokens total main : ℕ} {cap : Bool}
    (hop : ∀ g t j, (Manager.getNumBlocksToAllocate (cfg.groups i) c.request.requestId numTokens
      (c.newComputedBlockList i) total c.numLocalComputedTokens main cap).run g = .ok j t →
      P g → Q t) (hs : P (s.group i)) :
    Ensures (Coordinator.getNumBlocksToAllocate cfg c.request.requestId numTokens
      c.newComputedBlockList total c.numLocalComputedTokens main cap) s
      (fun _ t => Q (t.group i)) (fun _ _ => True) := by
  refine sumLoop_focus i
    (fun j _ => within_pools (manager_getNumBlocksToAllocate_frame _ _ _ _ _ _ _ _)) hP hQ
    (fun g hg => ?_) hs
  unfold Ensures
  split
  · next j t hrun => exact hop g t j hrun hg
  · trivial

/-- Up to the free-block check a group goes through removal and prediction. -/
theorem Stages.admitSlots [IsPreorder (BlockPool n) S] (hfree : ∀ bs, Within S (freeBlocks bs))
    (h : Stages S R cfg c i Before Skipped Predicted Attached Drawn) (hs : Before (s.group i)) :
    Ensures (KVCacheManager.admitSlots cfg c) s
      (fun o t => if o.isSome then Predicted (t.group i)
        else Before (t.group i) ∨ Predicted (t.group i))
      (fun _ _ => True) := by
  obtain ⟨hbefore, hskipped, hpredicted⟩ := h.stableBefore
  have hfits : Ensures (fullSequenceFits cfg c) s (fun _ t => Before (t.group i))
      (fun _ _ => True) := by
    rw [fullSequenceFits, ensures_ite]
    refine ⟨fun _ => ?_, fun _ => hs⟩
    rw [ensures_bind]
    exact (predict_focus hbefore hbefore (h.fullSequence _) hs).weaken (fun _ t ht => ht)
  simp only [KVCacheManager.admitSlots, ensures_bind, ensures_check]
  refine ⟨fun _ => hfits.weaken ?_, fun _ => trivial⟩
  intro fits t ht
  rw [ensures_ite]
  refine ⟨fun _ => ?_, fun _ => Or.inl ht⟩
  rw [ensures_bind]
  refine (forGroups_focus i
    (fun j _ => within_pools (manager_removeSkippedBlocks_frame hfree _ _ _)) hbefore
    hskipped h.skip ht).weaken (fun _ u hu => ?_)
  rw [ensures_bind]
  refine (predict_focus hskipped hpredicted h.predict hu).weaken (fun _ v hv => ?_)
  rw [ensures_bind, ensures_get, ensures_ite]
  exact ⟨fun _ => Or.inr hv, fun _ => hv⟩

/-- Behind it the group goes through hits, external blocks and new blocks. -/
theorem Stages.takeBlocks [IsPreorder (BlockPool n) R] (hR : PoolFrame R)
    (h : Stages S R cfg c i Before Skipped Predicted Attached Drawn)
    (hnoHits : c.newComputedBlocks = none → c.numNewComputedTokens = 0)
    (hfirst : c.numNewComputedTokens ≠ 0 ∨ c.numExternalComputedTokens ≠ 0 →
      ∀ j, (s.managers j).numCachedBlock c.request.requestId = none)
    (hs : Predicted (s.group i)) :
    Ensures (KVCacheManager.takeBlocks cfg c) s (fun _ t => Drawn (t.group i))
      (fun _ _ => True) := by
  obtain ⟨hpredicted, hattached, hdrawn⟩ := h.stable
  have hnew {P : Group n → Prop} (hP : Stable R P)
      (hop : ∀ g, P g → Ensures (Manager.allocateNewBlocks (cfg.groups i) c.request.requestId
        (c.numTokensNeedSlot cfg) (c.numTokensMainModel cfg)) g (fun _ t => Drawn t)
        (fun _ _ => True)) {t : CacheState n m} (ht : P (t.group i)) :
      Ensures (Coordinator.allocateNewBlocks cfg c.request.requestId (c.numTokensNeedSlot cfg)
        (c.numTokensMainModel cfg)) t (fun _ u => Drawn (u.group i)) (fun _ _ => True) := by
    refine forGroups_focus i (fun j _ => within_discard (within_pools
      (manager_allocateNewBlocks_frame _ _ hR _ _))) hP hdrawn (fun g hg => ?_) ht
    rw [ensures_discard]
    exact hop g hg
  rw [KVCacheManager.takeBlocks, ensures_bind, ensures_onlyIf]
  refine ⟨fun hsome => ?_, fun hnone => ?_⟩
  · rw [Coordinator.allocateNewComputedBlocks, ensures_bind, ensures_get, ensures_ite,
      ensures_check]
    refine ⟨fun htracked => ⟨fun _ => ?_, fun _ => trivial⟩, fun _ => ?_⟩
    · -- a tracked request is running
      obtain ⟨j, hj⟩ := htracked
      have hzero : ¬ (c.numNewComputedTokens ≠ 0 ∨ c.numExternalComputedTokens ≠ 0) :=
        fun hpos => by simp [hfirst hpos j] at hj
      exact hnew hpredicted (h.running (by omega) (by omega)) hs
    · rw [ensures_bind]
      refine (forGroups_focus i
        (fun j _ => within_pools (manager_addLocalComputedBlocks_frame _ _ hR _ _ _))
        hpredicted hattached (h.addLocal hsome) hs).weaken (fun _ t ht => ?_)
      rw [ensures_onlyIf]
      refine ⟨fun _ => ?_, fun _ => hnew hattached h.first ht⟩
      refine (forGroups_focus i
        (fun j _ => within_pools (manager_allocateExternalComputedBlocks_frame _ _ hR _ _))
        hattached hattached h.external ht).weaken (fun _ u hu => ?_)
      exact hnew hattached h.first hu
  · rw [not_or, Option.not_isSome_iff_eq_none] at hnone
    exact hnew hpredicted (h.running (hnoHits hnone.1) (by omega)) hs

/-- An allocation takes the group to the last stage; a refused one stops in one
of the first two. -/
theorem Stages.allocateSlots [IsPreorder (BlockPool n) S] [IsPreorder (BlockPool n) R]
    (hfree : ∀ bs, Within S (freeBlocks bs)) (hR : PoolFrame R)
    (h : Stages S R cfg c i Before Skipped Predicted Attached Drawn)
    (hnoHits : c.newComputedBlocks = none → c.numNewComputedTokens = 0)
    (hfirst : c.numNewComputedTokens ≠ 0 ∨ c.numExternalComputedTokens ≠ 0 →
      ∀ j, (s.managers j).numCachedBlock c.request.requestId = none)
    (hs : Before (s.group i)) :
    Ensures (KVCacheManager.allocateSlots cfg c) s
      (fun taken t => if taken then Drawn (t.group i)
        else Before (t.group i) ∨ Predicted (t.group i))
      (fun _ _ => True) := by
  rw [KVCacheManager.allocateSlots, ensures_bind]
  refine ((h.admitSlots hfree hs).and (admitSlots_tracked cfg c s)).weaken ?_
  rintro o t ⟨ht, htracked⟩
  cases o with
  | none => exact ht
  | some k =>
    dsimp only
    rw [ensures_bind]
    have hfirst' : c.numNewComputedTokens ≠ 0 ∨ c.numExternalComputedTokens ≠ 0 →
        ∀ j, (t.managers j).numCachedBlock c.request.requestId = none :=
      fun hpos j => by rw [htracked j]; exact hfirst hpos j
    refine (h.takeBlocks hR hnoHits hfirst' ht).weaken (fun _ u hu => ?_)
    rw [ensures_bind, commitBlocks, ensures_onlyIf]
    refine ⟨fun _ => ?_, fun _ => hu⟩
    have hdrawn := h.stable.2.2
    exact (forGroups_focus i (fun j _ => within_pools (manager_cacheBlocks_frame _ hR _ _ _ _))
      hdrawn hdrawn (fun g hg => h.cache _ g hg) hu).weaken (fun _ v hv => hv)

end Vllm.ManagerPools
