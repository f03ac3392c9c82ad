import Vllm.CpuOffload

/-!
What the manager does to its policy. A property of policy states that the
policy's own operations keep is kept by every call on the manager, whatever its
arguments and however it ends: the manager inserts only keys the policy does
not hold, and touches the policy in no other way.
-/
namespace Vllm.Offload

open Outcome

variable {κ σ : Type}

def Keeps (I : σ → Prop) (s t : σ) : Prop := I s → I t

instance (I : σ → Prop) : IsPreorder σ (Keeps I) where
  refl _ h := h
  trans _ _ _ hst htu h := htu (hst h)

/-- A property of the states of a policy that its operations keep. Keys are inserted only
while the policy does not hold them. -/
structure CachePolicy.Closed (P : CachePolicy κ σ) (I : σ → Prop) : Prop where
  setRefCnt : ∀ k r s, I s → I (P.setRefCnt k r s)
  insertAll : ∀ (entries : List (κ × BlockStatus)) s, I s →
    (∀ e ∈ entries, P.get s e.1 = none) → I (entries.foldl (fun p e => P.insert e.1 e.2 p) s)
  remove : ∀ k, Within (Keeps I) (P.remove k)
  touch : ∀ ks s, I s → I (P.touch ks s)
  evict : ∀ n shielded s, I s → Ensures (P.evict n shielded) s
    (fun _ t => I t ∧ ∀ k, P.get s k = none → P.get t k = none) (fun _ t => I t)
  clear : ∀ s, I s → I (P.clear s)
  markEvictable : ∀ k s, I s → I (P.markEvictable k s)
  markNonEvictable : ∀ k, Within (Keeps I) (P.markNonEvictable k)

namespace CPUOffloadingManager

variable {P : CachePolicy κ σ} {I : σ → Prop}

def OnPolicy (I : σ → Prop) (m : CPUOffloadingManager κ σ) : Prop := I m.policy

theorem onPolicy_of_eq {m t : CPUOffloadingManager κ σ} (h : t.policy = m.policy)
    (hm : I m.policy) : OnPolicy I t := by
  unfold OnPolicy
  rw [h]
  exact hm

/-- What a policy operation keeps is kept on the manager. -/
theorem within_withPolicy {α : Type} {op : EStateM Failure σ α} (h : Within (Keeps I) op) :
    Within (Keeps (OnPolicy I)) (withPolicy (κ := κ) op) := by
  intro m
  unfold withPolicy
  rw [ensures_zoom]
  exact h m.policy

theorem within_modify_policy {f : CPUOffloadingManager κ σ → CPUOffloadingManager κ σ}
    (h : ∀ m, I m.policy → I (f m).policy) :
    Within (Keeps (OnPolicy I)) (modify f : EStateM Failure _ PUnit) :=
  within_modify h

theorem within_pinBlock (hI : P.Closed I) (k : κ) : Within (Keeps (OnPolicy I)) (pinBlock P k) := by
  unfold pinBlock
  refine within_get.bind fun m => (within_expect _ _).bind fun block =>
    (within_check _ _).bind fun _ => (within_onlyIf _ ?_).bind fun _ => ?_
  · refine (within_withPolicy (hI.markNonEvictable k)).bind fun _ => ?_
    apply Within.bind
    · apply within_modify_policy
      exact fun _ h => h
    · exact fun _ => within_get.bind fun _ => within_check _ _
  · apply Within.bind
    · apply within_modify_policy
      exact fun m h => hI.setRefCnt k _ m.policy h
    · exact fun _ => within_pure _

theorem within_prepareLoad (hI : P.Closed I) (keys : List κ) :
    Within (Keeps (OnPolicy I)) (prepareLoad P keys) := by
  unfold prepareLoad
  induction keys with
  | nil => exact within_pure _
  | cons k keys ih =>
    rw [List.mapM_cons]
    exact (within_pinBlock hI k).bind fun _ => ih.bind fun _ => within_pure _

theorem within_unpinBlock (hI : P.Closed I) (k : κ) :
    Within (Keeps (OnPolicy I)) (unpinBlock P k) := by
  unfold unpinBlock
  apply within_get_bind
  intro m
  rw [ensures_bind, ensures_expect]
  refine ⟨fun block _ => ?_, fun _ h => h⟩
  rw [ensures_bind, ensures_check]
  refine ⟨fun _ => ?_, fun _ h => h⟩
  dsimp only
  rw [ensures_bind, ensures_set, ensures_onlyIf]
  refine ⟨fun _ => ?_, fun _ h => hI.setRefCnt k _ _ h⟩
  rw [ensures_modify]
  exact fun h => hI.markEvictable k _ (hI.setRefCnt k _ _ h)

theorem within_commitBlock (hI : P.Closed I) (k : κ) :
    Within (Keeps (OnPolicy I)) (commitBlock P k) := by
  unfold commitBlock
  apply within_get_bind
  intro m
  split
  next => exact fun h => h
  next block _ =>
    rw [ensures_ite]
    refine ⟨fun _ h => h, fun _ => ?_⟩
    rw [ensures_bind, ensures_set, ensures_pure]
    exact fun h => hI.markEvictable k _ (hI.setRefCnt k 0 _ h)

theorem within_commitBlocks (hI : P.Closed I) (keys : List κ) :
    Within (Keeps (OnPolicy I)) (commitBlocks P keys) := by
  induction keys with
  | nil => exact within_pure _
  | cons k keys ih =>
    exact (within_commitBlock hI k).bind fun _ => ih.bind fun _ => within_pure _

theorem within_dropBlock (hI : P.Closed I) (k : κ) :
    Within (Keeps (OnPolicy I)) (dropBlock P k) := by
  unfold dropBlock
  apply within_get_bind
  intro m
  split
  next => exact fun h => h
  next block _ =>
    rw [ensures_onlyIf]
    refine ⟨fun _ => ?_, fun _ h => h⟩
    rw [ensures_bind, ensures_set, ensures_bind]
    refine (within_withPolicy (hI.remove k) _).imp ?_
    intro _ t ht
    exact ht

/-- Making room evicts, and brings no new key into the cache. -/
theorem policy_makeRoom (hI : P.Closed I) (n : ℕ) (shielded : List κ)
    (m : CPUOffloadingManager κ σ) (hm : I m.policy) :
    Ensures (makeRoom P n shielded) m
      (fun _ t => I t.policy ∧ ∀ k, P.get m.policy k = none → P.get t.policy k = none)
      fun _ t => I t.policy := by
  unfold makeRoom
  rw [ensures_bind, ensures_get]
  dsimp only
  rw [ensures_ite]
  refine ⟨fun _ => ⟨hm, fun _ h => h⟩, fun _ => ?_⟩
  rw [ensures_ite]
  refine ⟨fun _ => ⟨hm, fun _ h => h⟩, fun _ => ?_⟩
  rw [ensures_bind]
  unfold withPolicy
  rw [ensures_zoom]
  refine (hI.evict _ shielded m.policy hm).imp ?_
  intro r p hp
  cases r with
  | none => exact hp
  | some evicted =>
    dsimp only
    rw [ensures_bind, ensures_modify, ensures_bind, ensures_get, ensures_bind, ensures_check]
    exact ⟨fun _ => hp, fun _ => hp.1⟩

theorem policy_allocateBlocks (keys : List κ) (m : CPUOffloadingManager κ σ) :
    Ensures (allocateBlocks keys) m (fun _ t => t.policy = m.policy)
      fun _ t => t.policy = m.policy := by
  unfold allocateBlocks
  rw [ensures_bind, ensures_get]
  dsimp only
  rw [ensures_bind, ensures_check]
  exact ⟨fun _ => rfl, fun _ => rfl⟩

/-- A completed store readies or removes the blocks of its keys. -/
theorem within_completeStore (hI : P.Closed I) (keys : List κ) (success : Bool) :
    Within (Keeps (OnPolicy I)) (completeStore P keys success) := by
  unfold completeStore
  apply within_ite
  · refine (within_commitBlocks hI keys).bind fun stored => within_modify_policy fun m h => ?_
    rw [policy_emit]
    exact h
  · exact within_forM _ keys fun k _ => within_dropBlock hI k

variable [DecidableEq κ]

theorem policy_aboveThreshold (keys : List κ) (m : CPUOffloadingManager κ σ) :
    Ensures (aboveThreshold keys) m (fun _ t => t.policy = m.policy)
      fun _ t => t.policy = m.policy := by
  unfold aboveThreshold
  rw [ensures_bind, ensures_get]
  split
  next => rfl
  next =>
    rw [ensures_bind]
    refine (ensures_forM (I := fun t => t.policy = m.policy) _ keys ?_ m rfl).imp ?_
    · intro key _ t ht
      rw [ensures_bind, ensures_get, ensures_bind, ensures_expect]
      refine ⟨fun counts _ => ?_, fun _ => ht⟩
      split <;> exact ht
    · intro _ t ht
      exact ht

/-- A store inserts only keys that are not cached. -/
theorem within_prepareStore (hI : P.Closed I) (keys : List κ) :
    Within (Keeps (OnPolicy I)) (prepareStore P keys) := by
  intro m
  by_cases hm : I m.policy
  swap
  · exact Ensures.of_forall (fun _ _ h => absurd h hm) (fun _ _ h => absurd h hm)
  unfold prepareStore
  rw [ensures_bind]
  refine (policy_aboveThreshold keys m).mono ?_ (fun _ t ht _ => onPolicy_of_eq ht hm)
  intro admitted t ht
  rw [ensures_bind, ensures_get]
  dsimp only
  rw [ensures_ite]
  refine ⟨fun _ _ => onPolicy_of_eq ht hm, fun _ => ?_⟩
  rw [ensures_bind]
  refine (policy_makeRoom hI _ _ t (onPolicy_of_eq ht hm)).mono ?_ (fun _ _ h _ => h)
  intro r u hu
  cases r with
  | none => exact fun _ => hu.1
  | some evicted =>
    dsimp only
    rw [ensures_bind, ensures_modify, ensures_bind]
    have hemit := policy_emit evicted true u
    refine (policy_allocateBlocks _ _).mono ?_ (fun _ v hv _ => ?_)
    · intro blocks v hv
      have hpolicy : v.policy = u.policy := hv.trans hemit
      rw [ensures_bind, ensures_check]
      refine ⟨fun _ => ?_, fun _ _ => onPolicy_of_eq hpolicy hu.1⟩
      rw [ensures_bind, ensures_modify, ensures_bind, ensures_modify, ensures_pure]
      intro _
      apply hI.insertAll _ v.policy (onPolicy_of_eq hpolicy hu.1)
      intro e he
      have hkey := (List.of_mem_zip he).1
      rw [hpolicy]
      apply hu.2
      exact of_decide_eq_true (List.mem_filter.mp hkey).2
    · have hpolicy : v.policy = u.policy := hv.trans hemit
      exact onPolicy_of_eq hpolicy hu.1

inductive Call (κ : Type) where
  | lookup (key : κ)
  | touch (keys : List κ)
  | prepareLoad (keys : List κ)
  | completeLoad (keys : List κ)
  | prepareStore (keys : List κ)
  | completeStore (keys : List κ) (success : Bool)
  | resetCache

def perform (P : CachePolicy κ σ) : Call κ → EStateM Failure (CPUOffloadingManager κ σ) PUnit
  | .lookup _ => return ⟨⟩
  | .touch keys => modify (touch P keys)
  | .prepareLoad keys => discard (prepareLoad P keys)
  | .completeLoad keys => completeLoad P keys
  | .prepareStore keys => discard (prepareStore P keys)
  | .completeStore keys success => completeStore P keys success
  | .resetCache => modify (resetCache P)

/-- Every call on the manager keeps what the operations of its policy keep. -/
theorem within_perform (hI : P.Closed I) (call : Call κ) :
    Within (Keeps (OnPolicy I)) (perform P call) := by
  cases call with
  | lookup key => exact within_pure _
  | touch keys => exact within_modify_policy fun m h => hI.touch keys m.policy h
  | prepareLoad keys => exact (within_prepareLoad hI keys).map _
  | completeLoad keys => exact within_forM _ keys fun k _ => within_unpinBlock hI k
  | prepareStore keys => exact (within_prepareStore hI keys).map _
  | completeStore keys success => exact within_completeStore hI keys success
  | resetCache => exact within_modify_policy fun m h => hI.clear m.policy h

/-- The states that calls on a new manager lead to, whatever their arguments and outcomes. -/
inductive Reachable (P : CachePolicy κ σ) (numBlocks : ℕ) (enableEvents : Bool)
    (storeThreshold maxTrackerSize : ℤ) : CPUOffloadingManager κ σ → Prop
  | init : Reachable P numBlocks enableEvents storeThreshold maxTrackerSize
      (.init P numBlocks enableEvents storeThreshold maxTrackerSize)
  | call {m t : CPUOffloadingManager κ σ} {call : Call κ}
      (h : Reachable P numBlocks enableEvents storeThreshold maxTrackerSize m)
      (hleads : Leads (perform P call) m t) :
      Reachable P numBlocks enableEvents storeThreshold maxTrackerSize t

variable {numBlocks : ℕ} {enableEvents : Bool} {storeThreshold maxTrackerSize : ℤ}

/-- A closed property that holds at the start holds of the policy throughout. -/
theorem Reachable.policy {m : CPUOffloadingManager κ σ} (hI : P.Closed I)
    (hinit : I (P.init numBlocks))
    (h : Reachable P numBlocks enableEvents storeThreshold maxTrackerSize m) : I m.policy := by
  induction h with
  | init => exact hinit
  | call _ hleads ih => exact (within_perform hI _).of_leads hleads ih

def afterCall (P : CachePolicy κ σ) (m : CPUOffloadingManager κ σ) (call : Call κ) :
    CPUOffloadingManager κ σ :=
  match (perform P call).run m with
  | .ok _ t => t
  | .error _ t => t

def afterCalls (P : CachePolicy κ σ) (m : CPUOffloadingManager κ σ) (calls : List (Call κ)) :
    CPUOffloadingManager κ σ :=
  calls.foldl (afterCall P) m

theorem leads_afterCall (m : CPUOffloadingManager κ σ) (call : Call κ) :
    Leads (perform P call) m (m.afterCall P call) := by
  unfold Leads Ensures afterCall
  cases (perform P call).run m with
  | ok a t => rfl
  | error e t => rfl

theorem Reachable.afterCalls {m : CPUOffloadingManager κ σ} (calls : List (Call κ))
    (h : Reachable P numBlocks enableEvents storeThreshold maxTrackerSize m) :
    Reachable P numBlocks enableEvents storeThreshold maxTrackerSize (m.afterCalls P calls) := by
  induction calls generalizing m with
  | nil => exact h
  | cons call calls ih => exact ih (h.call (leads_afterCall m call))

end CPUOffloadingManager

end Vllm.Offload
