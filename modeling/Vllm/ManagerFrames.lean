import Vllm.KVCacheManager
import Vllm.PoolSteps

/-!
What the operations of a manager may change. They reach the pool only through
its methods, and an operation for one request leaves the entries of every other
request alone. Each operation is judged once, for any relation between pools
that the methods keep; the runs of all developments over the managers use these
facts.
-/
namespace Vllm.ManagerFrames

open Outcome Pool PoolSteps CacheManagers KVCacheManager

variable {n : ℕ}

structure Entry (n : ℕ) where
  blocks : List (Fin n)
  numCachedBlock : Option ℕ
  partialHit : Option (ℕ × Fin n)
  lastStateBlockIdx : Option ℕ
  numRetiredBlocks : ℕ
  allocated : Bool
  checkpoint : Option (ℕ × ℕ)
  producerBoundary : Option ℕ
  alignedStateCow : Option (ℕ × Fin n)

def entry (m : Manager n) (r : RequestId) : Entry n where
  blocks := m.reqToBlocks r
  numCachedBlock := m.numCachedBlock r
  partialHit := m.partialHitReqs r
  lastStateBlockIdx := m.mamba.lastStateBlockIdx r
  numRetiredBlocks := m.mamba.numRetiredBlocks r
  allocated := m.mamba.allocatedBlockReqs r
  checkpoint := m.mamba.checkpoints r
  producerBoundary := m.mamba.producerBoundaryStateReqs r
  alignedStateCow := m.mamba.alignedStateCowReqs r

def OnlyTouches (r : RequestId) (g t : Group n) : Prop :=
  ∀ q, q ≠ r → entry t.manager q = entry g.manager q

def SameEntries (g t : Group n) : Prop := ∀ q, entry t.manager q = entry g.manager q

instance : IsPreorder (Group n) SameEntries where
  refl _ _ := rfl
  trans _ _ _ h h' q := (h' q).trans (h q)

def OnPools (R : BlockPool n → BlockPool n → Prop) (g t : Group n) : Prop := R g.pool t.pool

instance (R : BlockPool n → BlockPool n → Prop) [IsPreorder (BlockPool n) R] :
    IsPreorder (Group n) (OnPools R) where
  refl g := refl_of R g.pool
  trans _ _ _ h h' := trans_of R h h'

/-- What an operation for request `r` does: the pool changes by `S`, the entries
of other requests stay, and the dictionaries change by `W`. -/
structure Frame (S : BlockPool n → BlockPool n → Prop) (r : RequestId)
    (W : Manager n → Manager n → Prop) (g t : Group n) : Prop where
  pool : S g.pool t.pool
  other : OnlyTouches r g t
  same : W g.manager t.manager

instance (S : BlockPool n → BlockPool n → Prop) (r : RequestId) (W : Manager n → Manager n → Prop)
    [IsPreorder (BlockPool n) S] [IsPreorder (Manager n) W] :
    IsPreorder (Group n) (Frame S r W) where
  refl g := ⟨refl_of S g.pool, fun _ _ => rfl, refl_of W g.manager⟩
  trans _ _ _ h h' := ⟨trans_of S h.pool h'.pool,
    fun q hq => (h'.other q hq).trans (h.other q hq), trans_of W h.same h'.same⟩

def Anyhow {α : Type} (_ _ : α) : Prop := True

instance {α : Type} : IsPreorder α Anyhow where
  refl _ := trivial
  trans _ _ _ _ _ := trivial

/-- A relation between pools that the copies of blocks keep. -/
structure CopyFrame (R : BlockPool n → BlockPool n → Prop) : Prop where
  retain : ∀ (p : BlockPool n) b, R p (p.addRef b 1)
  caching : ∀ P (p q : BlockPool n), CacheSteps P p q → R p q

/-- A relation between pools that the methods used by the managers keep. -/
structure PoolFrame (R : BlockPool n → BlockPool n → Prop) [IsPreorder (BlockPool n) R] : Prop
    extends CopyFrame R where
  getNewBlocks : ∀ k, Within R (getNewBlocks k)
  touch : ∀ bs, Within R (touch bs)
  freeBlocks : ∀ bs, Within R (freeBlocks bs)
  refresh : ∀ entries, Within R (refreshCachedFreeBlocks entries)

theorem within_anyhow {σ α : Type} (op : EStateM Failure σ α) : Within Anyhow op :=
  fun _ => .of_forall (fun _ _ => trivial) fun _ _ => trivial

theorem anyPool : PoolFrame (n := n) Anyhow where
  retain _ _ := trivial
  caching _ _ _ _ := trivial
  getNewBlocks _ := within_anyhow _
  touch _ := within_anyhow _
  freeBlocks _ := within_anyhow _
  refresh _ := within_anyhow _

/-! ### Changes of the dictionaries -/

/-- The removal of skipped blocks keeps the lengths of the tables. -/
structure Trims (m m' : Manager n) : Prop where
  length : ∀ q, (m'.reqToBlocks q).length = (m.reqToBlocks q).length
  numCachedBlock : m'.numCachedBlock = m.numCachedBlock
  partialHitReqs : m'.partialHitReqs = m.partialHitReqs
  alignedStateCowReqs : m'.mamba.alignedStateCowReqs = m.mamba.alignedStateCowReqs
  allocatedBlockReqs : m'.mamba.allocatedBlockReqs = m.mamba.allocatedBlockReqs
  checkpoints : m'.mamba.checkpoints = m.mamba.checkpoints

instance : IsPreorder (Manager n) Trims where
  refl _ := ⟨fun _ => rfl, rfl, rfl, rfl, rfl, rfl⟩
  trans _ _ _ h h' := ⟨fun q => (h'.length q).trans (h.length q),
    h'.numCachedBlock.trans h.numCachedBlock, h'.partialHitReqs.trans h.partialHitReqs,
    h'.alignedStateCowReqs.trans h.alignedStateCowReqs,
    h'.allocatedBlockReqs.trans h.allocatedBlockReqs, h'.checkpoints.trans h.checkpoints⟩

def Plans (r : RequestId) (m m' : Manager n) : Prop :=
  ∃ checkpoint, m' = { m with
    mamba := { m.mamba with checkpoints := Function.update m.mamba.checkpoints r checkpoint } }

instance (r : RequestId) : IsPreorder (Manager n) (Plans r) where
  refl m := ⟨m.mamba.checkpoints r, by rw [Function.update_eq_self]⟩
  trans _ _ _ h h' := by
    obtain ⟨first, rfl⟩ := h
    obtain ⟨second, rfl⟩ := h'
    exact ⟨second, by rw [Function.update_idem]⟩

/-- Registering full blocks changes the counts of cached blocks only. -/
def Registers (m m' : Manager n) : Prop := ∃ counts, m' = { m with numCachedBlock := counts }

instance : IsPreorder (Manager n) Registers where
  refl m := ⟨m.numCachedBlock, rfl⟩
  trans _ _ _ h h' := by
    obtain ⟨first, rfl⟩ := h
    obtain ⟨second, rfl⟩ := h'
    exact ⟨second, rfl⟩

def KeepsCheckpoints (m m' : Manager n) : Prop := m'.mamba.checkpoints = m.mamba.checkpoints

instance : IsPreorder (Manager n) KeepsCheckpoints where
  refl _ := rfl
  trans _ _ _ h h' := h'.trans h

def KeepsFlags (m m' : Manager n) : Prop :=
  m'.mamba.allocatedBlockReqs = m.mamba.allocatedBlockReqs ∧ KeepsCheckpoints m m'

instance : IsPreorder (Manager n) KeepsFlags where
  refl _ := ⟨rfl, rfl⟩
  trans _ _ _ h h' := ⟨h'.1.trans h.1, h'.2.trans h.2⟩

def KeepsPages (m m' : Manager n) : Prop := m'.reqToBlocks = m.reqToBlocks ∧ KeepsFlags m m'

instance : IsPreorder (Manager n) KeepsPages where
  refl m := ⟨rfl, refl_of KeepsFlags m⟩
  trans _ _ _ h h' := ⟨h'.1.trans h.1, trans_of KeepsFlags h.2 h'.2⟩

/-- Registering touches counts of cached blocks, so tables and flags stay. -/
theorem Registers.keepsPages {m m' : Manager n} (h : Registers m m') : KeepsPages m m' := by
  obtain ⟨counts, rfl⟩ := h
  exact ⟨rfl, rfl, rfl⟩

variable {m : Manager n} {r q : RequestId}

@[simp]
theorem entry_setBlocks (h : q ≠ r) (blocks : List (Fin n)) :
    entry (m.setBlocks r blocks) q = entry m q := by
  simp [entry, Manager.setBlocks, h]

@[simp]
theorem entry_setNumCachedBlock (h : q ≠ r) (k : Option ℕ) :
    entry (m.setNumCachedBlock r k) q = entry m q := by
  simp [entry, Manager.setNumCachedBlock, h]

@[simp]
theorem entry_setPartialHit (h : q ≠ r) (hit : Option (ℕ × Fin n)) :
    entry (m.setPartialHit r hit) q = entry m q := by
  simp [entry, Manager.setPartialHit, h]

theorem setBlocks_trims {blocks : List (Fin n)}
    (h : blocks.length = (m.reqToBlocks r).length) : Trims m (m.setBlocks r blocks) where
  length q := by
    by_cases hq : q = r
    · subst hq
      simp [Manager.setBlocks, h]
    · simp [Manager.setBlocks, hq]
  numCachedBlock := rfl
  partialHitReqs := rfl
  alignedStateCowReqs := rfl
  allocatedBlockReqs := rfl
  checkpoints := rfl

section
variable {S : BlockPool n → BlockPool n → Prop} {r : RequestId}
  {W W' : Manager n → Manager n → Prop} {α : Type}

/-- An operation on the pool does not reach the dictionaries. -/
theorem onPool_same (op : PoolM n α) : Within SameEntries (onPool op) := by
  intro g
  rw [onPool, ensures_zoom]
  exact .of_forall (fun _ _ _ => rfl) fun _ _ _ => rfl

theorem onPool_within {op : PoolM n α} (h : Within S op) : Within (OnPools S) (onPool op) := by
  intro g
  rw [onPool, ensures_zoom]
  exact h g.pool

variable {op : ManagerM n α}

theorem within_discard {R : Group n → Group n → Prop} (h : Within R op) :
    Within R (discard op) := fun g => (ensures_discard op g _ _).mpr (h g)

theorem within_pools (h : Within (Frame S r W) op) : Within (OnPools S) op :=
  h.mono fun _ _ h => h.pool

/-- A weaker promise about the dictionaries of the request. -/
theorem Frame.weaken (h : Within (Frame S r W) op) (hW : ∀ m m', W m m' → W' m m') :
    Within (Frame S r W') op :=
  h.mono fun _ _ h => ⟨h.pool, h.other, hW _ _ h.same⟩

/-- An operation on the pool keeps every frame whose relation it keeps. -/
theorem onPool_frame [IsPreorder (Manager n) W] {op : PoolM n α} (h : Within S op) :
    Within (Frame S r W) (onPool op) := by
  intro g
  rw [onPool, ensures_zoom]
  exact (h g.pool).mono (fun _ _ hp => ⟨hp, fun _ _ => rfl, refl_of W g.manager⟩)
    fun _ _ hp => ⟨hp, fun _ _ => rfl, refl_of W g.manager⟩

/-- A change to the dictionaries is in the frame when the other requests keep their entries. -/
theorem modifyManager_frame [IsPreorder (BlockPool n) S] {f : Manager n → Manager n}
    (h : ∀ m q, q ≠ r → entry (f m) q = entry m q) (hW : ∀ m, W m (f m)) :
    Within (Frame S r W) (modifyManager f) :=
  within_modify fun g => ⟨refl_of S g.pool, h g.manager, hW g.manager⟩

theorem modifyMamba_frame [IsPreorder (BlockPool n) S] {f : MambaState n → MambaState n}
    (h : ∀ (m : Manager n) q, q ≠ r → entry { m with mamba := f m.mamba } q = entry m q)
    (hW : ∀ m : Manager n, W m { m with mamba := f m.mamba }) :
    Within (Frame S r W) (MambaManager.modifyMamba f) :=
  modifyManager_frame h hW
end

/-! ### The removal of skipped blocks and the prediction -/

theorem removeLoop_length (null : Fin n) (first last : ℕ) (blocks : List (Fin n)) :
    (Base.removeLoop null first last blocks).2.length = blocks.length := by
  induction last generalizing blocks with
  | zero => rfl
  | succ last ih =>
    unfold Base.removeLoop
    split
    · rfl
    · split_ifs
      · rfl
      · exact (ih _).trans (List.length_set ..)

theorem retireLoop_length (pool : BlockPool n) (first last : ℕ) (blocks : List (Fin n)) :
    (MambaManager.retireLoop pool first last blocks).2.length = blocks.length := by
  induction last generalizing blocks with
  | zero => rfl
  | succ last ih =>
    unfold MambaManager.retireLoop
    split_ifs
    · rfl
    · split
      · exact ih _
      · split_ifs
        · exact ih _
        · exact (ih _).trans (List.length_set ..)

section
variable {S : BlockPool n → BlockPool n → Prop} [IsPreorder (BlockPool n) S]
  (hfree : ∀ bs, Within S (freeBlocks bs)) (k : ManagerConfig) (r : RequestId)

theorem setBlocks_frame (g : Group n) {blocks : List (Fin n)}
    (h : blocks.length = (g.manager.reqToBlocks r).length) :
    Frame S r Trims g { g with manager := g.manager.setBlocks r blocks } :=
  ⟨refl_of S g.pool, fun _ hq => entry_setBlocks hq _, setBlocks_trims h⟩

theorem onBlocksFreedEarly_frame (blocks : List (Fin n)) :
    Within (Frame S r Trims) (MambaManager.onBlocksFreedEarly r blocks) :=
  within_get.bind fun _ => modifyMamba_frame (fun _ _ _ => rfl)
    fun _ => ⟨fun _ => rfl, rfl, rfl, rfl, rfl, rfl⟩

include hfree

variable (processed : ℕ)

/-- Skipped blocks give way to null blocks one for one. -/
theorem removeSkippedBlocks_frame :
    Within (Frame S r Trims) (Base.removeSkippedBlocks k r processed) := by
  refine within_get.bind fun _ => within_onlyIf _ (within_get_bind fun g => ?_)
  rw [ensures_onlyIf]
  refine ⟨fun _ => ?_, fun _ => refl_of (Frame S r Trims) g⟩
  exact Ensures.bind_trans (setBlocks_frame r g (removeLoop_length ..))
    fun _ t _ => onPool_frame (hfree _) t

theorem removeBlocksInRange_frame (first last : ℕ) :
    Within (Frame S r Trims) (MambaManager.removeBlocksInRange r first last) := by
  refine within_get_bind fun g => ?_
  rw [ensures_onlyIf]
  refine ⟨fun _ => ?_, fun _ => refl_of (Frame S r Trims) g⟩
  refine Ensures.bind_trans (setBlocks_frame r g (retireLoop_length ..)) fun _ t _ => ?_
  refine ((within_onlyIf _ ?_).bind fun _ => modifyMamba_frame (fun m q hq => ?_) fun _ => ?_) t
  · exact (onPool_frame (hfree _)).bind fun _ => onBlocksFreedEarly_frame r _
  · simp [entry, hq]
  · exact ⟨fun _ => rfl, rfl, rfl, rfl, rfl, rfl⟩

theorem freeLastState_frame :
    Within (Frame S r Trims) (MambaManager.freeLastState k r processed) := by
  refine within_get.bind fun g => ?_
  dsimp only
  split
  · exact within_pure _
  · refine within_onlyIf _ ((within_expect _ _).bind fun _ => within_onlyIf _ ?_)
    refine (onPool_frame (hfree _)).bind fun _ => Within.bind (fun t => ?_) fun _ =>
      onBlocksFreedEarly_frame r _
    exact setBlocks_frame r t (List.length_set ..)

/-- The Mamba manager also frees the state of two steps ago, in place. -/
theorem Mamba.removeSkippedBlocks_frame :
    Within (Frame S r Trims) (MambaManager.removeSkippedBlocks k r processed) :=
  within_get.bind fun _ => (within_onlyIf _ (removeBlocksInRange_frame hfree r _ _)).bind
    fun _ => freeLastState_frame hfree k r processed

/-- Whatever the kind, the removal of skipped blocks trims the table of one request. -/
theorem manager_removeSkippedBlocks_frame :
    Within (Frame S r Trims) (Manager.removeSkippedBlocks k r processed) := by
  unfold Manager.removeSkippedBlocks
  split
  · exact within_pure _
  · exact within_pure _
  · exact Mamba.removeSkippedBlocks_frame hfree k r processed
  · exact removeSkippedBlocks_frame hfree k r processed

omit hfree

/-- Of all predictions only that of the Mamba manager writes: it plans a checkpoint. -/
theorem Mamba.getNumBlocksToAllocate_frame (spec : MambaSpec) (numTokens : ℕ)
    (hits : List (Fin n)) (total numLocal main : ℕ) (cap : Bool) :
    Within (Frame S r (Plans r))
      (MambaManager.getNumBlocksToAllocate k spec r numTokens hits total numLocal main cap) := by
  refine within_get.bind fun _ => within_ite (within_pure _) ?_
  refine (within_onlyIf _ (modifyMamba_frame (fun m q hq => ?_) fun _ => ?_)).bind
    fun _ => within_pure _
  · simp [entry, hq]
  · exact ⟨_, rfl⟩

/-- So a prediction changes at most the checkpoint of its request. -/
theorem manager_getNumBlocksToAllocate_frame (numTokens : ℕ) (hits : List (Fin n))
    (total numLocal main : ℕ) (cap : Bool) :
    Within (Frame S r (Plans r))
      (Manager.getNumBlocksToAllocate k r numTokens hits total numLocal main cap) := by
  unfold Manager.getNumBlocksToAllocate
  split
  · exact within_pure _
  · exact within_get.bind fun _ => within_pure _
  · exact Mamba.getNumBlocksToAllocate_frame k r _ numTokens hits total numLocal main cap
  · refine within_get.bind fun _ => within_ite ?_ (within_pure _)
    exact (within_check _ _).bind fun _ => within_pure _
end

/-! ### The base class -/

variable (k : ManagerConfig) (r : RequestId) (m : Manager n) (null : Fin n) (skipped : ℕ)
  (hits : List (Fin n)) (numLocal : ℕ)

theorem attachComputed_mamba :
    (Base.attachComputed k m null r skipped hits numLocal).mamba = m.mamba := by
  unfold Base.attachComputed
  split
  · rfl
  · split_ifs <;> rfl

/-- Attaching hits to a request leaves the others alone. -/
theorem entry_attachComputed (hq : q ≠ r) :
    entry (Base.attachComputed k m null r skipped hits numLocal) q = entry m q := by
  unfold Base.attachComputed
  split
  · simp [hq]
  · split_ifs <;> simp [hq]

theorem reachableBlockMask_within {R : Group n → Group n → Prop} [IsPreorder (Group n) R]
    (startBlock endBlock : ℕ) (retention : Option ℕ) (boundaries : List ℕ) :
    Within R (reachableBlockMask k startBlock endBlock retention boundaries : ManagerM n _) := by
  unfold reachableBlockMask
  split
  · exact (within_check _ _).bind fun _ => within_pure _
  · exact (within_check _ _).bind fun _ => within_pure _
  · exact within_pure _
  · exact within_pure _

theorem popBlocksForFree_frame {S : BlockPool n → BlockPool n → Prop} [IsPreorder (BlockPool n) S] :
    Within (Frame S r Anyhow) (Base.popBlocksForFree r) := by
  refine within_get.bind fun _ => Within.bind ?_ fun _ => within_pure _
  exact modifyManager_frame (fun m q hq => by simp [hq]) fun _ => trivial

section
variable {S : BlockPool n → BlockPool n → Prop} (hS : CopyFrame S) (k : ManagerConfig)
  (r : RequestId)
include hS

variable {W : Manager n → Manager n → Prop}

theorem CopyFrame.retained [IsPreorder (Manager n) W] (b : Fin n) :
    Within (Frame S r W) (onPool (modify fun p => p.addRef b 1)) :=
  onPool_frame (within_modify fun p => hS.retain p b)

theorem CopyFrame.cached {α : Type} [IsPreorder (Manager n) W] {P : BlockPool n → Fin n → Prop}
    {op : PoolM n α} (h : Within (CacheSteps P) op) : Within (Frame S r W) (onPool op) :=
  onPool_frame (h.mono (hS.caching P))

variable [IsPreorder (BlockPool n) S] (blockIdx : ℕ) (source cow : Fin n)

/-- A copy redirects one table entry of the request. -/
theorem applyCow_frame : Within (Frame S r KeepsFlags) (Base.applyCow r blockIdx source cow) := by
  refine within_get.bind fun g => (within_check _ _).bind fun _ => ?_
  refine (within_check _ _).bind fun _ => (within_check _ _).bind fun _ => ?_
  refine Within.bind (modifyManager_frame (fun m q hq => ?_) fun _ => ⟨rfl, rfl⟩)
    fun _ => hS.retained r cow
  simp [entry, Manager.setBlocks, hq]

theorem Mamba.moveToCow_frame :
    Within (Frame S r KeepsPages) (MambaManager.moveToCow k r blockIdx source cow) := by
  refine within_get.bind fun _ => (within_check _ _).bind fun _ => ?_
  refine (hS.cached r (moveBlockHashes_within source cow)).bind fun _ => ?_
  refine (hS.retained r source).bind fun _ => Within.bind ?_ fun _ => within_get.bind fun _ => ?_
  · exact modifyManager_frame (fun m q hq => by simp [entry, hq]) fun _ => ⟨rfl, rfl, rfl⟩
  · exact modifyMamba_frame (fun _ _ _ => rfl) fun _ => ⟨rfl, rfl, rfl⟩

/-- The pending copies of a request concern its own entries. -/
theorem Mamba.applyPendingCows_frame (allocated : Bool) (cows : List (ℕ × Fin n))
    (newBlocks returned : List (Fin n)) :
    Within (Frame S r KeepsFlags)
      (MambaManager.applyPendingCows k r allocated cows newBlocks returned) := by
  induction cows generalizing newBlocks returned with
  | nil => exact within_pure _
  | cons cow cows ih =>
    refine (within_expect _ _).bind fun _ => within_ite ?_ ?_
    · exact (Frame.weaken (moveToCow_frame hS k r _ _ _) fun _ _ h => h.2).bind fun _ => ih _ _
    · exact (applyCow_frame hS r _ _ _).bind fun _ => ih _ _
end

section
variable {S : BlockPool n → BlockPool n → Prop} [IsPreorder (BlockPool n) S] (hS : PoolFrame S)
  (k : ManagerConfig) (r : RequestId)
include hS

/-- Hits are touched in the pool and recorded for the request. -/
theorem addLocalComputedBlocks_frame (hits : List (Fin n)) (numLocal numExternal : ℕ) :
    Within (Frame S r KeepsFlags) (Base.addLocalComputedBlocks k r hits numLocal numExternal) := by
  refine within_get.bind fun g => (within_check _ _).bind fun _ => ?_
  refine (within_ite (onPool_frame (hS.touch _)) (within_check _ _)).bind fun _ => ?_
  refine modifyManager_frame (fun m q hq => entry_attachComputed k r m _ _ _ _ hq) fun m => ?_
  unfold KeepsFlags KeepsCheckpoints
  rw [attachComputed_mamba]
  exact ⟨rfl, rfl⟩

theorem extendBlocks_frame (numNewBlocks : ℕ) :
    Within (Frame S r KeepsFlags) (Base.extendBlocks k r numNewBlocks) := by
  refine (onPool_frame (hS.getNewBlocks _)).bind fun _ => Within.bind ?_ fun _ => within_pure _
  exact modifyManager_frame (fun m q hq => entry_setBlocks hq _) fun _ => ⟨rfl, rfl⟩

theorem allocateExternalComputedBlocks_frame (numLocal numExternal : ℕ) :
    Within (Frame S r KeepsFlags)
      (Base.allocateExternalComputedBlocks k r numLocal numExternal) :=
  within_get.bind fun _ => within_onlyIf _ (within_discard (extendBlocks_frame hS k r _))

theorem redirectPartialHit_frame : Within (Frame S r KeepsFlags) (Base.redirectPartialHit r) := by
  refine within_get.bind fun g => ?_
  split
  · exact within_pure _
  · refine Within.bind (modifyManager_frame (fun m q hq => by simp [hq]) fun _ => ⟨rfl, rfl⟩)
      fun _ => (onPool_frame (hS.getNewBlocks _)).bind fun _ => (within_expect _ _).bind fun _ => ?_
    refine (applyCow_frame hS.toCopyFrame r _ _ _).bind fun _ => Within.bind ?_
      fun _ => within_pure _
    exact modifyManager_frame (fun _ _ _ => rfl) fun _ => ⟨rfl, rfl⟩

variable (req : CacheRequest) (numTokens : ℕ) (retention : Option ℕ) (replay : ℕ)

/-- New blocks extend the table of the request and of no other. -/
theorem allocateNewBlocks_frame :
    Within (Frame S r KeepsFlags) (Base.allocateNewBlocks k r numTokens) := by
  refine (redirectPartialHit_frame hS r).bind fun _ => within_get.bind fun _ => ?_
  exact within_ite (within_pure _) ((extendBlocks_frame hS k r _).bind fun _ => within_pure _)

/-- Caching registers full blocks and changes no table. -/
theorem cacheBlocks_frame : Within (Frame S req.requestId Registers)
      (Base.cacheBlocks k req numTokens retention replay) := by
  refine within_get.bind fun _ => within_onlyIf _ ?_
  refine (reachableBlockMask_within k _ _ _ _).bind fun _ => ?_
  refine (hS.cached _ (cacheFullBlocks_within _ _ _ _ _ _ _)).bind fun _ => ?_
  exact modifyManager_frame (fun m q hq => by simp [hq]) fun _ => ⟨_, rfl⟩

theorem fullAttention_cacheBlocks_frame : Within (Frame S req.requestId Registers)
      (FullAttention.cacheBlocks k req numTokens retention replay) := by
  refine (cacheBlocks_frame hS k req _ _ _).bind fun _ => within_get.bind fun _ => ?_
  refine within_onlyIf _ (within_get.bind fun g => within_onlyIf _ ?_)
  split
  · exact within_pure _
  · exact within_discard (hS.cached _ (cachePartialBlock_within _ _ _ _ _ _))

theorem claimRingBlock_frame : Within (Frame S r KeepsFlags) (CircularBuffer.claimRingBlock k r) :=
  within_get.bind fun _ => within_ite (extendBlocks_frame hS k r _) (within_pure _)
end

/-! ### The Mamba manager -/

namespace Mamba

open MambaManager

variable {S : BlockPool n → BlockPool n → Prop} [IsPreorder (BlockPool n) S]
  (k : ManagerConfig) (spec : MambaSpec) (r : RequestId)

theorem shiftBlocks_frame (plan : AllocationPlan n) :
    Within (Frame S r KeepsCheckpoints) (shiftBlocks spec r plan) := by
  refine within_get.bind fun g => Within.bind (modifyManager_frame (fun m q hq => ?_) fun _ => rfl)
    fun _ => within_onlyIf _ (within_forM _ _ fun i _ => within_get.bind fun _ => ?_)
  · simp [entry, Manager.setBlocks, hq]
  · refine (within_expect _ _).bind fun _ => (within_check _ _).bind fun _ => ?_
    exact modifyManager_frame (fun m q hq => entry_setBlocks hq _) fun _ => rfl

theorem markAllocated_frame : Within (Frame S r KeepsCheckpoints) (markAllocated r) :=
  modifyMamba_frame (fun m q hq => by simp [entry, hq]) fun _ => rfl

theorem recordPublished_same (idx : ℕ) :
    Within SameEntries (recordPublished k r idx : ManagerM n _) := by
  refine within_get.bind fun _ => (within_expect _ _).bind fun _ => ?_
  split
  · exact within_modify fun _ _ => rfl
  · exact within_pure _

theorem queueAlignedCow_frame (numTokens before after : ℕ) :
    Within (Frame S r KeepsPages) (queueAlignedCow k r numTokens before after) := by
  refine within_get.bind fun _ => within_onlyIf _ ((within_expect _ _).bind fun _ => ?_)
  refine within_onlyIf _ (modifyMamba_frame (fun m q hq => ?_) fun _ => ⟨rfl, rfl, rfl⟩)
  simp [entry, hq]

variable (hS : PoolFrame S)
include hS

/-- The Mamba manager records in addition which state it has to copy. -/
theorem addLocalComputedBlocks_frame (hits : List (Fin n)) (numLocal numExternal : ℕ) :
    Within (Frame S r KeepsFlags) (addLocalComputedBlocks k r hits numLocal numExternal) := by
  refine (ManagerFrames.addLocalComputedBlocks_frame hS k r _ _ _).bind fun _ => ?_
  refine within_get.bind fun g => within_onlyIf _ ?_
  dsimp only
  split
  · exact within_pure _
  · refine within_onlyIf _ (modifyMamba_frame (fun m q hq => ?_) fun _ => ⟨rfl, rfl⟩)
    simp [entry, hq]

theorem drawBlocks_frame (plan : AllocationPlan n) (prevBlockLen : ℕ) :
    Within (Frame S r KeepsCheckpoints) (drawBlocks k spec r plan prevBlockLen) := by
  have hcows := applyPendingCows_frame hS.toCopyFrame k r plan.blocksAllocated plan.pendingCows
  refine within_get.bind fun _ => (within_check _ _).bind fun _ => ?_
  refine (onPool_frame (hS.getNewBlocks _)).bind fun _ => Within.bind ?_ fun _ => ?_
  · exact modifyManager_frame (fun _ _ _ => rfl) fun _ => rfl
  refine (Frame.weaken (hcows _ _) fun _ _ h => h.2).bind fun _ => Within.bind ?_ fun _ => ?_
  · refine modifyManager_frame (fun m q hq => ?_) fun _ => rfl
    simp [entry, Manager.setBlocks, Manager.setPartialHit, hq]
  · exact (markAllocated_frame r).bind fun _ => within_pure _

/-- The planned checkpoint outlasts the allocation of the Mamba manager. -/
theorem allocateNewBlocks_frame (numTokens main : ℕ) :
    Within (Frame S r KeepsCheckpoints) (allocateNewBlocks k spec r numTokens main) := by
  refine within_get.bind fun _ => within_ite ?_ ?_
  · exact (markAllocated_frame r).bind fun _ => within_pure _
  · exact (shiftBlocks_frame spec r _).bind fun _ => drawBlocks_frame k spec r hS _ _

variable (req : CacheRequest) (numTokens : ℕ) (retention : Option ℕ)

theorem cachePartialTailBlock_frame : Within (Frame S req.requestId KeepsPages)
      (cachePartialTailBlock k req numTokens retention) := by
  have hcache (b : Fin n) (tokens : ℕ) (replace : Bool) :=
    hS.cached req.requestId (W := KeepsPages) (cachePartialBlock_within req.toRequest b tokens
      k.kvCacheGroupId k.blockSize replace)
  refine within_get.bind fun g => ?_
  split
  · refine within_get.bind fun _ => (within_check _ _).bind fun _ => ?_
    refine (within_expect _ _).bind fun b => ?_
    refine within_ite (Within.bind ?_ fun _ => within_pure _) (within_ite (within_pure _) ?_)
    · exact hS.cached _ (P := NonNull) fun p => maybeEvictCachedBlock_steps p b
    · exact hcache _ _ _
  · refine within_get.bind fun g => within_ite ?_ (within_pure _)
    dsimp only
    split
    · exact within_pure _
    · refine within_ite (within_pure _) ((hcache _ _ _).bind fun _ => Within.bind
        (within_onlyIf _ (modifyManager_frame (fun m q hq => ?_) fun _ => ⟨rfl, rfl, rfl⟩))
        fun _ => within_pure _)
      simp [entry, Manager.setNumCachedBlock, Manager.setPartialHit, hq]

/-- What the Mamba manager publishes becomes pending without a change to the tables. -/
theorem cacheBlocks_frame (replay : ℕ) : Within (Frame S req.requestId KeepsPages)
      (cacheBlocks k req numTokens retention replay) := by
  have hbase := Frame.weaken (ManagerFrames.cacheBlocks_frame hS k req numTokens retention replay)
    fun _ _ h => h.keepsPages
  refine within_get.bind fun _ => hbase.bind fun _ => within_get.bind fun _ => ?_
  refine (cachePartialTailBlock_frame k hS req _ _).bind fun _ => Within.bind ?_ fun _ => ?_
  · exact modifyMamba_frame (fun _ _ _ => rfl) fun _ => ⟨rfl, rfl, rfl⟩
  refine within_onlyIf _ ((within_forM _ _ fun i _ => ?_).bind
    fun _ => queueAlignedCow_frame k req.requestId _ _ _)
  refine within_get.bind fun _ => (within_expect _ _).bind fun _ => ?_
  split
  · exact modifyMamba_frame (fun _ _ _ => rfl) fun _ => ⟨rfl, rfl, rfl⟩
  · exact within_pure _

/-- The Mamba manager drops all it knows of the request, and of that request only. -/
theorem popBlocksForFree_frame : Within (Frame S r Anyhow) (popBlocksForFree r) := by
  refine within_get.bind fun _ => Within.bind (modifyMamba_frame (fun m q hq => ?_)
    fun _ => trivial) fun _ => ?_
  · simp [entry, hq]
  · exact (within_onlyIf _ (onPool_frame (hS.refresh _))).bind fun _ =>
      ManagerFrames.popBlocksForFree_frame r

end Mamba

/-! ### The manager of any kind -/

variable (k : ManagerConfig) (r : RequestId)

theorem manager_newStepStarts_same : Within (fun g t : Group n => t.pool = g.pool ∧ SameEntries g t)
    (Manager.newStepStarts k) := by
  unfold Manager.newStepStarts
  split
  · exact within_modify fun _ => ⟨rfl, fun _ => rfl⟩
  · exact fun _ => ⟨rfl, fun _ => rfl⟩

variable {S : BlockPool n → BlockPool n → Prop} [IsPreorder (BlockPool n) S] (hS : PoolFrame S)
include hS

/-- Whatever the kind, hits leave the flags of the request alone. -/
theorem manager_addLocalComputedBlocks_frame (hits : List (Fin n)) (numLocal numExternal : ℕ) :
    Within (Frame S r KeepsFlags)
      (Manager.addLocalComputedBlocks k r hits numLocal numExternal) := by
  unfold Manager.addLocalComputedBlocks
  split
  · refine (within_check _ _).bind fun _ => (within_check _ _).bind fun _ => ?_
    exact modifyManager_frame (fun m q hq => by simp [hq]) fun _ => ⟨rfl, rfl⟩
  · exact within_pure _
  · exact Mamba.addLocalComputedBlocks_frame k r hS hits numLocal numExternal
  · exact addLocalComputedBlocks_frame hS k r hits numLocal numExternal

/-- The same of the blocks for external tokens. -/
theorem manager_allocateExternalComputedBlocks_frame (numLocal numExternal : ℕ) :
    Within (Frame S r KeepsFlags)
      (Manager.allocateExternalComputedBlocks k r numLocal numExternal) := by
  unfold Manager.allocateExternalComputedBlocks
  split
  · exact within_check _ _
  · exact within_discard (claimRingBlock_frame hS k r)
  · exact allocateExternalComputedBlocks_frame hS k r numLocal numExternal

/-- New blocks mark the request as allocated, so only the planned checkpoints are sure to stay. -/
theorem manager_allocateNewBlocks_frame (numTokens main : ℕ) :
    Within (Frame S r KeepsCheckpoints) (Manager.allocateNewBlocks k r numTokens main) := by
  unfold Manager.allocateNewBlocks
  split
  · exact within_pure _
  · exact Frame.weaken (claimRingBlock_frame hS k r) fun _ _ h => h.2
  · exact Mamba.allocateNewBlocks_frame k _ r hS numTokens main
  · exact Frame.weaken (allocateNewBlocks_frame hS k r numTokens) fun _ _ h => h.2

/-- Caching keeps the tables, for every kind. -/
theorem manager_cacheBlocks_frame (req : CacheRequest) (numTokens : ℕ) (retention : Option ℕ)
    (replay : ℕ) : Within (Frame S req.requestId KeepsPages)
      (Manager.cacheBlocks k req numTokens retention replay) := by
  unfold Manager.cacheBlocks
  split
  · exact Frame.weaken (fullAttention_cacheBlocks_frame hS k req numTokens retention replay)
      fun _ _ h => h.keepsPages
  · exact within_pure _
  · exact Mamba.cacheBlocks_frame k hS req numTokens retention replay
  · exact Frame.weaken (cacheBlocks_frame hS k req numTokens retention replay)
      fun _ _ h => h.keepsPages

theorem manager_popBlocksForFree_frame :
    Within (Frame S r Anyhow) (Manager.popBlocksForFree k r) := by
  unfold Manager.popBlocksForFree
  split
  · exact Mamba.popBlocksForFree_frame r hS
  · exact popBlocksForFree_frame r

/-- The end of a request leaves the entries of the others. -/
theorem manager_free_frame : Within (Frame S r Anyhow) (Manager.free k r) :=
  (manager_popBlocksForFree_frame k r hS).bind fun _ => onPool_frame (hS.freeBlocks _)

end Vllm.ManagerFrames
