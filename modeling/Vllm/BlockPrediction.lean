import Vllm.ManagerPools
import Vllm.PagedTables
import Vllm.PoolSpending

/-!
The prediction of the attention managers. Whatever passes the free-block check
of `allocate_slots` has an allowance in every group that covers its hits, its
external blocks, its new blocks and its copy-on-write block; no draw from the
pool is short.
-/
namespace Vllm.BlockPrediction

open Outcome Pool PoolFreeList CacheManagers KVCacheManager KVCacheRuns
  ManagerPools PagedTables PoolSpending

variable {n m : ℕ} (k : ManagerConfig) (r : RequestId)

def allowance (numTokens : ℕ) (g : Manager n) : ℕ :=
  match k.kind with
  | .dflashRing _ _ => 0
  | .circularBuffer => if g.reqToBlocks r = [] then 1 else 0
  | _ => cdiv numTokens k.blockSize - (g.reqToBlocks r).length + (g.partialHitReqs r).isSome.toNat

/-- The value of the prediction, for the managers other than Mamba's. -/
def predicted (numTokens : ℕ) (hits : List (Fin n)) (total numLocal : ℕ) (g : Group n) : ℕ :=
  match k.kind with
  | .dflashRing _ _ => 0
  | .circularBuffer => if g.manager.reqToBlocks r = [] then 1 else 0
  | _ =>
    if (g.manager.numCachedBlock r).isSome then
      cdiv numTokens k.blockSize - (g.manager.reqToBlocks r).length
    else
      firstTimeBlocks k g r (cdiv numTokens k.blockSize) hits total numLocal

section
variable {k : ManagerConfig} (hk : isPaged k.kind)
include hk

theorem allowance_paged (r : RequestId) (numTokens : ℕ) (g : Manager n) :
    allowance k r numTokens g = cdiv numTokens k.blockSize - (g.reqToBlocks r).length +
      (g.partialHitReqs r).isSome.toNat := by
  unfold allowance
  cases h : k.kind <;> simp_all [isPaged]

theorem predicted_paged (r : RequestId) (numTokens : ℕ) (hits : List (Fin n))
    (total numLocal : ℕ) (g : Group n) :
    predicted k r numTokens hits total numLocal g =
      if (g.manager.numCachedBlock r).isSome then
        cdiv numTokens k.blockSize - (g.manager.reqToBlocks r).length
      else
        firstTimeBlocks k g r (cdiv numTokens k.blockSize) hits total numLocal := by
  unfold predicted
  cases h : k.kind <;> simp_all [isPaged]
end

/-! ### The base class spends within its allowance -/

section
variable {k : ManagerConfig} {r : RequestId} {g : Group n}

theorem extendBlocks_spent (hg : Consistent g.pool) {j a : ℕ} (hj : j ≤ a)
    (ha : a ≤ g.pool.getNumFreeBlocks) :
    Ensures (Base.extendBlocks k r j) g
      (fun bs t => bs.length = j ∧ Spent a (a - j) g.pool t.pool ∧
        t.manager = (g.manager.setBlocks r (g.manager.reqToBlocks r ++ bs)).recordBlocks k bs)
      (fun _ _ => False) := by
  simp only [Base.extendBlocks, ensures_bind, onPool, ensures_zoom, modifyManager, ensures_modify,
    ensures_pure]
  refine (getNewBlocks_spent hg hj ha).imp ?_
  rintro bs q ⟨hlen, hspent, -⟩
  exact ⟨hlen, hspent, trivial⟩

variable (p : Manager n) (null : Fin n) (skipped : ℕ) (hits : List (Fin n)) (numLocal : ℕ)

theorem attachComputed_length :
    ((Base.attachComputed k p null r skipped (hits.drop skipped) numLocal).reqToBlocks r).length =
      max skipped hits.length := by
  rw [attachComputed_blocks]
  simp
  omega

theorem attachComputed_tail (hp : p.partialHitReqs r = none) :
    ((Base.attachComputed k p null r skipped (hits.drop skipped) numLocal).partialHitReqs
      r).isSome.toNat ≤ (k.hasPartialLocalHit hits numLocal).toNat := by
  unfold Base.attachComputed
  split
  · simp [Manager.setNumCachedBlock, Manager.setBlocks, hp]
  · next last hlast =>
    have hne : hits ≠ [] := by
      rintro rfl
      simp at hlast
    split_ifs with hmod
    · simp [ManagerConfig.hasPartialLocalHit, hne, hmod, Manager.setNumCachedBlock,
        Manager.setPartialHit]
    · simp [Manager.setNumCachedBlock, Manager.setBlocks, hp]

theorem touchComputed_spent (hg : Consistent g.pool) (hits : List (Fin n)) :
    Ensures (Base.touchComputed k hits) g
      (fun _ t => Spent (getNumEvictableBlocks g.pool hits) 0 g.pool t.pool ∧ t.manager = g.manager)
      (fun e t => Spent (getNumEvictableBlocks g.pool hits) 0 g.pool t.pool ∧
        ∀ message, e ≠ .valueError message) := by
  rw [Base.touchComputed, ensures_ite, onPool, ensures_zoom, ensures_check]
  refine ⟨fun _ => (touch_spent hg hits).mono (fun _ _ h => ⟨h, rfl⟩) (fun _ _ h => h.elim),
    fun _ => ⟨fun _ => ⟨.refl hg (Nat.zero_le _), rfl⟩, fun _ => ⟨.refl hg (Nat.zero_le _), ?_⟩⟩⟩
  simp

/-- The hits of a new request spend what the prediction counts for evictable hits and leave the
rest of it as allowance. -/
theorem addLocalComputedBlocks_spends {p₀ : BlockPool n} (hk : isPaged k.kind)
    (hp₀ : Consistent p₀) (hg : Consistent g.pool) (hgrown : Grown p₀ g.pool)
    (hhit : g.manager.partialHitReqs r = none) (numTokens : ℕ) (hits : List (Fin n))
    (numLocal numExternal : ℕ) :
    Spends (firstTimeBlocks k ⟨p₀, g.manager⟩ r (cdiv numTokens k.blockSize) hits
        (numLocal + numExternal) numLocal)
      (Base.addLocalComputedBlocks k r hits numLocal numExternal) g (allowance k r numTokens) := by
  simp only [Spends, Base.addLocalComputedBlocks, ensures_bind, ensures_get, ensures_check]
  refine ⟨fun hempty => ?_, fun _ => ⟨.refl hg (Nat.zero_le _), by simp⟩⟩
  set skipped := k.numSkippedBlocks (numLocal + numExternal) with hskipped
  have hevict := getNumEvictableBlocks_le hp₀ hgrown (List.Sublist.refl (hits.drop skipped))
  have hfirst : firstTimeBlocks k ⟨p₀, g.manager⟩ r (cdiv numTokens k.blockSize) hits
      (numLocal + numExternal) numLocal = cdiv numTokens k.blockSize - max skipped hits.length +
      (k.hasPartialLocalHit hits numLocal).toNat +
      getNumEvictableBlocks p₀ (hits.drop skipped) := by
    simp [firstTimeBlocks, hempty, ← hskipped]
  refine (touchComputed_spent hg (hits.drop skipped)).mono ?_ ?_
  · rintro _ t ⟨hspent, hsame⟩
    rw [modifyManager, ensures_modify, allowance_paged hk, hsame, attachComputed_length]
    have htail := attachComputed_tail (k := k) (r := r) g.manager g.pool.nullBlock skipped hits
      numLocal hhit
    refine ⟨hspent.consistent, hspent.grown, ?_⟩
    have hcount := hspent.count
    dsimp only
    omega
  · rintro e t ⟨hspent, he⟩
    exact ⟨hspent.mono (by omega) le_rfl, he⟩

theorem allocateExternalComputedBlocks_spends (hk : isPaged k.kind) (hg : Consistent g.pool)
    {numTokens numLocal numExternal : ℕ} (htokens : numLocal + numExternal ≤ numTokens)
    (hfree : allowance k r numTokens g.manager ≤ g.pool.getNumFreeBlocks) :
    Spends (allowance k r numTokens g.manager)
      (Base.allocateExternalComputedBlocks k r numLocal numExternal) g
      (allowance k r numTokens) := by
  have hcdiv : cdiv (numLocal + numExternal) k.blockSize ≤ cdiv numTokens k.blockSize :=
    Nat.div_le_div_right (by omega)
  simp only [Spends, Base.allocateExternalComputedBlocks, ensures_bind, ensures_get,
    ensures_onlyIf, ensures_discard]
  refine ⟨fun _ => ?_, fun _ => .refl hg le_rfl⟩
  rw [allowance_paged hk] at hfree ⊢
  refine (extendBlocks_spent hg (by omega) hfree).mono ?_ (fun _ _ h => h.elim)
  rintro bs t ⟨hlen, hspent, hsame⟩
  have hleft : allowance k r numTokens t.manager = cdiv numTokens k.blockSize -
      ((g.manager.reqToBlocks r).length + bs.length) +
        (g.manager.partialHitReqs r).isSome.toNat := by
    rw [allowance_paged hk, hsame]
    simp [Manager.recordBlocks, Manager.setBlocks]
  refine hspent.mono ?_ ?_ <;> omega

theorem redirectPartialHit_spends (hg : Consistent g.pool) {a : ℕ}
    (ha : (g.manager.partialHitReqs r).isSome.toNat + a ≤ g.pool.getNumFreeBlocks) :
    Ensures (Base.redirectPartialHit r) g
      (fun _ t => Spent ((g.manager.partialHitReqs r).isSome.toNat + a) a g.pool t.pool ∧
        (t.manager.reqToBlocks r).length = (g.manager.reqToBlocks r).length)
      (fun e t => Spent ((g.manager.partialHitReqs r).isSome.toNat + a) 0 g.pool t.pool ∧
        ∀ message, e ≠ .valueError message) := by
  rw [Base.redirectPartialHit, ensures_bind, ensures_get]
  split
  · next h => exact ⟨.refl hg (Nat.le_add_left ..), rfl⟩
  · next idx source h =>
    rw [h] at ha ⊢
    simp only [ensures_bind, modifyManager, ensures_modify, onPool, ensures_zoom]
    refine (getNewBlocks_spent hg (Nat.le_add_right 1 a) ha).mono ?_ (fun _ _ h => h.elim)
    rintro bs q ⟨-, hspent, href⟩
    have herr : Spent (1 + a) 0 g.pool q := hspent.mono (by omega) (Nat.zero_le _)
    rw [ensures_expect]
    refine ⟨fun cow hcow => ?_, fun _ => ⟨herr, by simp [indexError]⟩⟩
    simp only [Base.applyCow, ensures_bind, ensures_get, ensures_check, modifyManager,
      ensures_modify, onPool, ensures_zoom, ensures_pure]
    refine ⟨fun _ => ⟨fun _ => ⟨fun _ => ⟨?_, ?_⟩, fun _ => ⟨herr, by simp⟩⟩,
      fun _ => ⟨herr, by simp⟩⟩, fun _ => ⟨herr, by simp⟩⟩
    · have hpos := href cow (List.mem_of_head? hcow)
      refine hspent.trans ((addRef_spent hspent.consistent hpos a).mono ?_ le_rfl)
      omega
    · simp [Manager.setBlocks, Manager.setPartialHit]

/-- The new blocks and the private copy of a partial hit use up the allowance, and no more. -/
theorem allocateNewBlocks_spends (hk : isPaged k.kind) (hg : Consistent g.pool) {numTokens : ℕ}
    (hfree : allowance k r numTokens g.manager ≤ g.pool.getNumFreeBlocks) :
    Spends (allowance k r numTokens g.manager) (Base.allocateNewBlocks k r numTokens) g
      (fun _ => 0) := by
  rw [allowance_paged hk, Nat.add_comm] at hfree ⊢
  rw [Spends, Base.allocateNewBlocks, ensures_bind]
  refine (redirectPartialHit_spends hg hfree).imp ?_
  rintro _ t ⟨hspent, hlen⟩
  have hleft := hspent.covered hfree
  rw [ensures_bind, ensures_get, hlen, ensures_ite]
  refine ⟨fun _ => hspent.mono (by omega) (Nat.zero_le _), fun _ => ?_⟩
  rw [ensures_bind]
  refine (extendBlocks_spent hspent.consistent le_rfl hleft).mono ?_ (fun _ _ h => h.elim)
  rintro bs u ⟨-, hspent', -⟩
  exact hspent.trans (hspent'.mono (by omega) (by omega))
end

/-! ### Every manager but Mamba's -/

def isAttention (k : ManagerConfig) : Prop := ∀ spec, k.kind ≠ .mamba spec

theorem isAttention_cases {k : ManagerConfig} (hk : isAttention k) :
    isPaged k.kind = true ∨ k.kind = .circularBuffer ∨
      ∃ window extra, k.kind = .dflashRing window extra := by
  cases h : k.kind with
  | mamba spec => exact absurd h (hk spec)
  | dflashRing window extra => exact .inr (.inr ⟨window, extra, rfl⟩)
  | circularBuffer => exact .inr (.inl rfl)
  | _ => exact .inl rfl

section
variable {k : ManagerConfig} {r : RequestId} {g : Group n}

/-- A ring takes its one block on the first allocation and none afterwards. -/
theorem claimRingBlock_spends (hkind : k.kind = .circularBuffer) (hg : Consistent g.pool)
    {numTokens : ℕ} (hfree : allowance k r numTokens g.manager ≤ g.pool.getNumFreeBlocks) :
    Spends (allowance k r numTokens g.manager) (CircularBuffer.claimRingBlock k r) g
      (allowance k r numTokens) := by
  have hring : ∀ p : Manager n, allowance k r numTokens p = if p.reqToBlocks r = [] then 1 else 0 :=
    fun p => by rw [allowance, hkind]
  rw [hring] at hfree ⊢
  rw [Spends, CircularBuffer.claimRingBlock, ensures_bind, ensures_get, ensures_ite]
  refine ⟨fun hempty => ?_, fun hne => ?_⟩
  · rw [if_pos hempty] at hfree ⊢
    refine (extendBlocks_spent hg le_rfl hfree).mono ?_ (fun _ _ h => h.elim)
    rintro bs t ⟨hlen, hspent, hsame⟩
    have hbs : bs ≠ [] := List.ne_nil_of_length_eq_add_one hlen
    rw [hring, hsame, if_neg (by simp [Manager.recordBlocks, Manager.setBlocks, hbs])]
    exact hspent
  · rw [ensures_pure, hring]
    exact .refl hg le_rfl

section
variable (hk : isAttention k)
include hk

theorem manager_addLocal_spends {p₀ : BlockPool n} (hp₀ : Consistent p₀) (hg : Consistent g.pool)
    (hgrown : Grown p₀ g.pool) (hhit : isPaged k.kind → g.manager.partialHitReqs r = none)
    (htracked : g.manager.numCachedBlock r = none) (numTokens : ℕ) (hits : List (Fin n))
    (numLocal numExternal : ℕ) :
    Spends (predicted k r numTokens hits (numLocal + numExternal) numLocal ⟨p₀, g.manager⟩)
      (Manager.addLocalComputedBlocks k r hits numLocal numExternal) g
      (allowance k r numTokens) := by
  rcases isAttention_cases hk with hpaged | hring | ⟨window, extra, hdflash⟩
  · rw [predicted_paged hpaged, htracked, addLocalComputedBlocks_eq hpaged]
    exact addLocalComputedBlocks_spends hpaged hp₀ hg hgrown (hhit hpaged) numTokens hits _ _
  · have hsame : predicted k r numTokens hits (numLocal + numExternal) numLocal ⟨p₀, g.manager⟩ =
        allowance k r numTokens g.manager := by simp only [predicted, allowance, hring]
    rw [hsame, Manager.addLocalComputedBlocks, hring]
    exact .refl hg le_rfl
  · have hzero : ∀ p : Manager n, allowance k r numTokens p = 0 := fun p => by
      rw [allowance, hdflash]
    simp only [Spends, hzero, Manager.addLocalComputedBlocks, hdflash, predicted,
      DFlashRing.addLocalComputedBlocks, ensures_bind, ensures_check, modifyManager, ensures_modify]
    have hnothing : Spent 0 0 g.pool g.pool := .refl hg le_rfl
    exact ⟨fun _ => ⟨fun _ => hnothing, fun _ => ⟨hnothing, by simp⟩⟩, fun _ => ⟨hnothing, by simp⟩⟩

theorem manager_allocateExternal_spends (hg : Consistent g.pool)
    {numTokens numLocal numExternal : ℕ} (htokens : numLocal + numExternal ≤ numTokens)
    (hfree : allowance k r numTokens g.manager ≤ g.pool.getNumFreeBlocks) :
    Spends (allowance k r numTokens g.manager)
      (Manager.allocateExternalComputedBlocks k r numLocal numExternal) g
      (allowance k r numTokens) := by
  rcases isAttention_cases hk with hpaged | hring | ⟨window, extra, hdflash⟩
  · rw [allocateExternalComputedBlocks_eq hpaged]
    exact allocateExternalComputedBlocks_spends hpaged hg htokens hfree
  · rw [Manager.allocateExternalComputedBlocks, hring, Spends, ensures_discard]
    exact claimRingBlock_spends hring hg hfree
  · rw [Manager.allocateExternalComputedBlocks, hdflash]
    rw [Spends, DFlashRing.allocateExternalComputedBlocks, ensures_check]
    exact ⟨fun _ => .refl hg le_rfl, fun _ => ⟨.refl hg (Nat.zero_le _), by simp⟩⟩

theorem manager_allocateNew_spends (hg : Consistent g.pool) {numTokens : ℕ} (main : ℕ)
    (hfree : allowance k r numTokens g.manager ≤ g.pool.getNumFreeBlocks) :
    Spends (allowance k r numTokens g.manager) (Manager.allocateNewBlocks k r numTokens main) g
      (fun _ => 0) := by
  rcases isAttention_cases hk with hpaged | hring | ⟨window, extra, hdflash⟩
  · rw [allocateNewBlocks_eq hpaged]
    exact allocateNewBlocks_spends hpaged hg hfree
  · rw [Manager.allocateNewBlocks, hring]
    exact (claimRingBlock_spends hring hg hfree).mono
      (fun _ _ h => h.mono (by omega) (Nat.zero_le _)) (fun _ _ h => h)
  · rw [Manager.allocateNewBlocks, hdflash]
    exact .refl hg (Nat.zero_le _)

/-- The prediction is the natural number `predicted` and leaves the group as it is. -/
theorem getNumBlocksToAllocate_spec (numTokens : ℕ) (hits : List (Fin n))
    (total numLocal main : ℕ) (g : Group n) :
    Ensures (Manager.getNumBlocksToAllocate k r numTokens hits total numLocal main false) g
      (fun j t => j = (predicted k r numTokens hits total numLocal g : ℤ) ∧ t = g)
      (fun _ _ => True) := by
  rcases isAttention_cases hk with hpaged | hring | ⟨window, extra, hdflash⟩
  · rw [getNumBlocksToAllocate_eq hpaged, predicted_paged hpaged]
    simp only [Base.getNumBlocksToAllocate, admissionCap, ensures_bind, ensures_get, ensures_ite,
      ensures_check, ensures_pure]
    refine ⟨fun htracked => ⟨fun _ => ?_, fun _ => trivial⟩, fun htracked => ?_⟩
    · rw [if_pos htracked]
      exact ⟨rfl, trivial⟩
    · rw [if_neg htracked]
      exact ⟨rfl, trivial⟩
  · simp only [Manager.getNumBlocksToAllocate, predicted, hring, ensures_bind, ensures_get,
      ensures_pure, and_true]
    split_ifs <;> rfl
  · simp [Manager.getNumBlocksToAllocate, predicted, hdflash]

/-- A request without new hits is predicted what its group may take: its table
reaches past the skipped blocks. -/
theorem allowance_le_predicted {p : BlockPool n} {slots : Ledger}
    (hinv : PagedInv k slots g.manager) (numTokens numLocal : ℕ) {total : ℕ}
    (htotal : total ≤ slots r) :
    allowance k r numTokens g.manager ≤
      predicted k r numTokens [] total numLocal ⟨p, g.manager⟩ := by
  rcases isAttention_cases hk with hpaged | hring | ⟨window, extra, hdflash⟩
  · obtain ⟨hhit, hslots⟩ := hinv hpaged r
    have hskip : k.numSkippedBlocks total ≤ (g.manager.reqToBlocks r).length := by
      refine (Nat.div_le_div_right (getNumSkippedTokens_le k total)).trans ?_
      refine (Nat.div_le_div_right (htotal.trans hslots)).trans ?_
      exact (Nat.mul_div_cancel _ k.blockSize_pos).le
    rw [allowance_paged hpaged, predicted_paged hpaged]
    have hnone : g.manager.partialHitReqs r = none := hhit
    rw [hnone]
    split_ifs
    · simp
    · simp only [firstTimeBlocks, List.length_nil, Nat.zero_add, max_eq_right hskip]
      simp
      omega
  · simp [allowance, predicted, hring]
  · simp [allowance, predicted, hdflash]
end

end

/-! ### The whole allocation -/

variable {cfg : Config m} {c : SlotCall n m}

/-- The coordinator adds up what the groups predict. -/
theorem sumLoop_spec {op : Fin m → ManagerM n ℤ} {f : Fin m → Group n → ℕ}
    (hop : ∀ i g, Ensures (op i) g (fun j t => j = (f i g : ℤ) ∧ t = g) (fun _ _ => True))
    (l : List (Fin m)) (s : CacheState n m) :
    Ensures (Coordinator.sumLoop op l) s
      (fun j t => j = (total l (fun i => f i (s.group i)) : ℤ) ∧ t = s) (fun _ _ => True) := by
  induction l with
  | nil => exact ⟨rfl, rfl⟩
  | cons i l ih =>
    rw [Coordinator.sumLoop, ensures_bind, onGroup, ensures_zoom]
    refine (hop i (s.group i)).weaken ?_
    rintro j g ⟨rfl, rfl⟩
    rw [CacheState.setGroup_group_self, ensures_bind]
    refine ih.weaken ?_
    rintro j' t ⟨rfl, rfl⟩
    exact ⟨(Nat.cast_add _ _).symm, rfl⟩

def predictedOf (cfg : Config m) (c : SlotCall n m) (t : CacheState n m) (i : Fin m) : ℕ :=
  predicted (cfg.groups i) c.request.requestId (c.numTokensNeedSlot cfg)
    (c.newComputedBlockList i) c.allComputedTokens c.numLocalComputedTokens (t.group i)

/-- A call that passes the check was predicted the sum of its groups, and that
many blocks are free. -/
theorem admitSlots_predicted (hbase : ∀ i, isAttention (cfg.groups i)) (s : CacheState n m) :
    Ensures (admitSlots cfg c) s
      (fun o t => ∀ k, o = some k → k = (total (List.finRange m) (predictedOf cfg c t) : ℤ) ∧
        k ≤ t.pool.getNumFreeBlocks) (fun _ _ => True) := by
  simp only [admitSlots, ensures_bind, ensures_check]
  refine ⟨fun _ => Ensures.of_forall (fun fits t => ?_) fun _ _ => trivial, fun _ => trivial⟩
  rw [ensures_ite]
  refine ⟨fun _ => ?_, fun _ => by simp⟩
  rw [ensures_bind]
  refine Ensures.of_forall (fun _ u => ?_) (fun _ _ => trivial)
  rw [ensures_bind]
  have hsum := sumLoop_spec (fun i g => getNumBlocksToAllocate_spec (hbase i)
    (r := c.request.requestId) (c.numTokensNeedSlot cfg) (c.newComputedBlockList i)
    c.allComputedTokens c.numLocalComputedTokens (c.numTokensMainModel cfg) g) (List.finRange m) u
  refine hsum.weaken ?_
  rintro j v ⟨hj, rfl⟩
  rw [ensures_bind, ensures_get, ensures_ite]
  refine ⟨fun _ => by simp, fun hle => ?_⟩
  rintro k hk
  cases hk
  exact ⟨hj, by omega⟩

/-- Between the pool `p` and its end the computation spends at most `a`, and is
not stopped for want of blocks. -/
def Affords {α : Type} (a : ℕ) (p : BlockPool n) (op : CacheM n m α) (t : CacheState n m) : Prop :=
  Ensures op t (fun _ u => Spent a 0 p u.pool)
    (fun e u => Spent a 0 p u.pool ∧ ∀ message, e ≠ .valueError message)

/-- The last phase, from any state whose allowances are covered. -/
theorem allocateNewBlocks_phase (hbase : ∀ i, isAttention (cfg.groups i)) {a : ℕ}
    {p : BlockPool n} {u : CacheState n m} (r : RequestId) (numTokens main : ℕ)
    (hu : Spent a (total (List.finRange m) fun i => allowance (cfg.groups i) r numTokens
      (u.managers i)) p u.pool) (hfree : a ≤ p.getNumFreeBlocks) :
    Affords a p (Coordinator.allocateNewBlocks cfg r numTokens main) u := by
  refine (forGroups_spends (fun _ _ => 0) hu.consistent (hu.covered hfree) ?_).mono ?_ ?_
  · intro i p hp _ hle
    rw [Spends, ensures_discard]
    exact manager_allocateNew_spends (g := ⟨p, u.managers i⟩) (hbase i) hp main hle
  · exact fun _ v h => hu.trans (h.mono (by omega) (Nat.zero_le _))
  · exact fun e v h => ⟨hu.trans h.1, h.2⟩

/-- All groups together spend what they are predicted to take, each its own share. -/
theorem takeBlocks_spent {t : CacheState n m} {slots : Ledger}
    (hbase : ∀ i, isAttention (cfg.groups i)) (ht : Consistent t.pool)
    (hinv : ∀ i, PagedInv (cfg.groups i) slots (t.managers i))
    (hcomputed : c.request.numComputedTokens ≤ slots c.request.requestId)
    (hmax : c.allComputedTokens ≤ cfg.maxModelLen)
    (hnone : c.newComputedBlocks = none → c.numNewComputedTokens = 0)
    (hfirst : c.numNewComputedTokens ≠ 0 ∨ c.numExternalComputedTokens ≠ 0 →
      ∀ i, (t.managers i).numCachedBlock c.request.requestId = none)
    (hfree : total (List.finRange m) (predictedOf cfg c t) ≤ t.pool.getNumFreeBlocks) :
    Affords (total (List.finRange m) (predictedOf cfg c t)) t.pool (takeBlocks cfg c) t := by
  set r := c.request.requestId with hr
  set numTokens := c.numTokensNeedSlot cfg with hnt
  -- a request without new hits goes straight to the last phase
  have hrunning : c.newComputedBlockList = (fun _ => []) → c.numNewComputedTokens = 0 →
      c.numExternalComputedTokens = 0 →
      Affords (total (List.finRange m) (predictedOf cfg c t)) t.pool
        (Coordinator.allocateNewBlocks cfg r numTokens (c.numTokensMainModel cfg)) t := by
    intro hhits hnew hext
    refine allocateNewBlocks_phase hbase r numTokens _ (.refl ht (total_mono (fun i => ?_) _)) hfree
    rw [predictedOf, hhits]
    refine allowance_le_predicted (g := t.group i) (hbase i) (hinv i) _ _ ?_
    simpa [SlotCall.allComputedTokens, SlotCall.numLocalComputedTokens, hnew, hext] using hcomputed
  rw [Affords, takeBlocks, ensures_bind, ensures_onlyIf]
  refine ⟨fun _ => ?_, fun hskip => ?_⟩
  · rw [Coordinator.allocateNewComputedBlocks, ensures_bind, ensures_get, ensures_ite,
      ensures_check]
    refine ⟨fun htracked => ⟨fun hempty => ?_, fun _ => ⟨.refl ht (Nat.zero_le _), by simp⟩⟩,
      fun htracked => ?_⟩
    · have hold : ¬ (c.numNewComputedTokens ≠ 0 ∨ c.numExternalComputedTokens ≠ 0) := by
        intro hnew
        obtain ⟨i, hi⟩ := htracked
        rw [hfirst hnew i] at hi
        simp at hi
      exact hrunning (funext hempty) (by omega) (by omega)
    · have huntracked : ∀ i, (t.managers i).numCachedBlock r = none := by
        simpa using htracked
      have htokens : c.numLocalComputedTokens + c.numExternalComputedTokens ≤ numTokens := by
        rw [hnt, SlotCall.numTokensNeedSlot, SlotCall.numTokensMainModel,
          SlotCall.totalComputedTokens]
        unfold SlotCall.allComputedTokens at hmax ⊢
        omega
      -- the hits of all groups, then their external blocks, then the new ones
      have hlocal := forGroups_spends (fun i => allowance (cfg.groups i) r numTokens) ht hfree
        fun i p hp hgrown _ => manager_addLocal_spends (g := ⟨p, t.managers i⟩)
          (hbase i) ht hp hgrown
          (fun hpaged => (hinv i hpaged r).1) (huntracked i) numTokens (c.newComputedBlockList i)
          c.numLocalComputedTokens c.numExternalComputedTokens
      rw [ensures_bind]
      refine hlocal.imp ?_
      intro _ u hu
      have hlast {v : CacheState n m} (hv : Spent (total (List.finRange m) (predictedOf cfg c t))
          (total (List.finRange m) fun i => allowance (cfg.groups i) r numTokens (v.managers i))
          t.pool v.pool) :=
        allocateNewBlocks_phase hbase r numTokens (c.numTokensMainModel cfg) hv hfree
      rw [ensures_onlyIf]
      refine ⟨fun _ => ?_, fun _ => hlast hu⟩
      have hext := forGroups_spends (fun i => allowance (cfg.groups i) r numTokens)
        hu.consistent (hu.covered hfree) fun i p hp _ hle => manager_allocateExternal_spends
          (g := ⟨p, u.managers i⟩) (hbase i) hp htokens hle
      refine hext.mono ?_ ?_
      · exact fun _ v hv => hlast (hu.trans hv)
      · exact fun e v hv => ⟨hu.trans hv.1, hv.2⟩
  · rw [not_or, Nat.pos_iff_ne_zero, not_not] at hskip
    have hcalls : c.newComputedBlocks = none := by simpa using hskip.1
    refine hrunning ?_ (hnone hcalls) hskip.2
    simp [SlotCall.newComputedBlockList, hcalls]

/-- Whenever `allocate_slots` passes its free-block check, the blocks it then
takes out of the free queue are at most those predicted, and no draw from the
pool stops it. -/
theorem predicted_blocks_suffice {s t : CacheState n m} {slots : Ledger} {k : ℤ}
    {free : List (Fin n)} (hbase : ∀ i, isAttention (cfg.groups i)) (hs : Reachable cfg s slots)
    (hc : Promised cfg s slots c) (hadmits : (admitSlots cfg c).run s = .ok (some k) t)
    (hfree : FreeListInv t.pool free) :
    Ensures (takeBlocks cfg c) t
      (fun _ u => ∃ free', FreeListInv u.pool free' ∧ (free.length : ℤ) - free'.length ≤ k)
      (fun e u => (∃ free', FreeListInv u.pool free' ∧ (free.length : ℤ) - free'.length ≤ k) ∧
        ∀ message, e ≠ .valueError message) := by
  obtain ⟨hk, hle⟩ := (admitSlots_predicted hbase s).of_ok hadmits k rfl
  have hinv := (pagedInv_run.admitSlots (pagedInv_run.reachable hs)).of_ok hadmits
  have htracked := (admitSlots_tracked cfg c s).of_ok hadmits
  have hspent : ∀ u : CacheState n m,
      Spent (total (List.finRange m) (predictedOf cfg c t)) 0 t.pool u.pool →
      ∃ free', FreeListInv u.pool free' ∧ (free.length : ℤ) - free'.length ≤ k := by
    intro u hu
    obtain ⟨free', hfree'⟩ := hu.consistent
    have hcount := hu.count
    rw [hfree.count, hfree'.count] at hcount
    exact ⟨free', hfree', by omega⟩
  refine (takeBlocks_spent hbase ⟨free, hfree⟩ hinv hc.computed hc.total hc.noHits ?_
    (by omega)).mono ?_ ?_
  · intro hnew i
    rw [htracked i]
    exact (hc.firstTime hnew i).2
  · exact fun _ u hu => hspent u hu
  · exact fun e u hu => ⟨hspent u hu.1, hu.2⟩

/-- A full-attention group and a sliding-window group with blocks of two
tokens. -/
def twoGroups : Config 2 where
  groups i :=
    { kind := if i.val = 0 then .fullAttention else .slidingWindow 3 0
      blockSize := 2
      blockSize_pos := Nat.two_pos
      enableCaching := true
      kvCacheGroupId := if i.val = 0 then 0 else 1
      prefixCacheable := true
      cacheHitAlignmentTokens := 2
      useEagle := false
      fineGrainedPrefixCache := false
      dropEagleCheckpointBlock := false
      recordNewBlockIds := false
      maxAdmissionBlocksPerRequest := none }
  hybrid := some false
  maxModelLen := 8
  schedulerBlockSize := 2
  enableCaching := true
  useEagleBlockDrop := false
  draftReplayReserve := 0
  numReprefillableTokens := 0
  retentionInterval := none
  watermarkBlocks := 0

def firstChunk : SlotCall 6 2 where
  request :=
    { numPromptTokens := 3, promptTokenIds := some [7, 8, 9], outputTokenIds := [],
      allTokenIds := [7, 8, 9], promptEmbeds := none, mmFeatures := [], loraRequest := none,
      cacheSalt := none, blockHashes := [[1]], requestId := 0, status := .waiting,
      numComputedTokens := 0, numInFlightTokens := 0, sharedPrefixBoundary := 0 }
  numNewTokens := 3
  numNewComputedTokens := 0
  newComputedBlocks := none
  numLookaheadTokens := 0
  numExternalComputedTokens := 0
  delayCacheBlocks := false
  fullSequenceMustFit := false
  reservedBlocks := 0
  hasScheduledReqs := false

theorem predicted_blocks_suffice_first_chunk :
    ∃ (p : BlockPool 6) (t : CacheState 6 2), initPool 6 true 2 false = .ok p ∧
      (admitSlots twoGroups firstChunk).run ⟨p, fun _ => initManager⟩ = .ok (some 4) t ∧
      Ensures (takeBlocks twoGroups firstChunk) t
        (fun _ u => ∃ free', FreeListInv u.pool free' ∧ (5 : ℤ) - free'.length ≤ 4)
        (fun e u => (∃ free', FreeListInv u.pool free' ∧ (5 : ℤ) - free'.length ≤ 4) ∧
          ∀ message, e ≠ .valueError message) := by
  obtain ⟨p, hinit, hnew⟩ := initPool_spec (n := 6) true 2 false
  have hbase : ∀ i, isAttention (twoGroups.groups i) := by
    intro i spec
    dsimp only [twoGroups]
    split_ifs <;> simp
  have hpromised : Promised twoGroups ⟨p, fun _ => initManager⟩ (fun _ => 0) firstChunk :=
    ⟨le_rfl, by decide, fun _ => rfl, fun h => absurd h (by decide)⟩
  have hadmits : ∃ t, (admitSlots twoGroups firstChunk).run ⟨p, fun _ => initManager⟩ =
      .ok (some 4) t ∧ t.pool = p := by
    cases hinit
    exact ⟨_, rfl, rfl⟩
  obtain ⟨t, hadmits, hpool⟩ := hadmits
  have hfree : FreeListInv t.pool (List.finRange 6).tail := hpool ▸ hnew.free
  exact ⟨p, t, hinit, hadmits, predicted_blocks_suffice hbase (.init p) hpromised hadmits hfree⟩

end Vllm.BlockPrediction
