import Vllm.BlockPrediction
import Vllm.MambaTables

/-!
The prediction of the Mamba manager in "align" mode, against the blocks that
the allocation then draws. The draws are computed exactly, so the theorem says
when the prediction is enough and when it is short.
-/
namespace Vllm.MambaPrediction

open Function

open Outcome Pool Pool.BlockPool PoolSteps PoolFreeList CacheManagers MambaManager List
  KVCacheManager KVCacheRuns ManagerFrames MambaTables PoolSpending
open BlockPrediction (attachComputed_tail)
open PagedTables (attachComputed_blocks)

variable {n m : ℕ} {d total : ℕ} {u : Group n}

/-- An error that is neither the want of free blocks nor the bound on new
blocks. -/
def Harmless (e : Failure) : Prop :=
  (∀ message, e ≠ .valueError message) ∧ e ≠ .assertionError "num_new_blocks <= max_new_blocks"

abbrev OutOfBlocks (e : Failure) : Prop := ∃ message, e = .valueError message

abbrev spare (g : Group n) : ℕ := g.pool.getNumFreeBlocks

/-! ### Copy-on-write leaves the free queue alone -/

theorem moveBlockHashes_fails (src dst : Fin n) : Fails Harmless (moveBlockHashes src dst) := by
  refine fails_get.bind fun _ => (fails_check (by simp [Harmless])).bind fun _ => ?_
  refine (fails_check (by simp [Harmless])).bind fun _ => (fails_modifyGet _).bind fun keys => ?_
  refine fails_forM fun key _ => fails_get.bind fun s => fails_ite (fails_pure _) ?_
  refine Fails.bind ?_ fun _ => fails_modify _
  refine fails_get.bind fun t => fails_ite ?_ (fails_set _)
  exact fails_get.bind fun _ => (fails_check (by simp [Harmless])).bind fun _ => fails_set _

variable (k : ManagerConfig) (r : RequestId) (blockIdx : ℕ) (allocated : Bool) (source cow : Fin n)
  (cows : List (ℕ × Fin n)) (newBlocks returned : List (Fin n))

theorem moveToCow_fails : Fails Harmless (moveToCow k r blockIdx source cow) := by
  refine fails_get.bind fun _ => (fails_check (by simp [Harmless])).bind fun _ => ?_
  refine (fails_zoom (moveBlockHashes_fails source cow)).bind fun _ => ?_
  refine (fails_zoom (fails_modify _)).bind fun _ => (fails_modify _).bind fun _ => ?_
  exact fails_get.bind fun _ => fails_modify _

theorem applyCow_fails : Fails Harmless (Base.applyCow r blockIdx source cow) := by
  refine fails_get.bind fun _ => (fails_check (by simp [Harmless])).bind fun _ => ?_
  refine (fails_check (by simp [Harmless])).bind fun _ => ?_
  refine (fails_check (by simp [Harmless])).bind fun _ => (fails_modify _).bind fun _ => ?_
  exact fails_zoom (fails_modify _)

theorem applyPendingCows_fails :
    Fails Harmless (applyPendingCows k r allocated cows newBlocks returned) := by
  induction cows generalizing newBlocks returned with
  | nil => exact fails_pure _
  | cons cow cows ih =>
    refine (fails_expect (by simp [Harmless, indexError])).bind fun _ => fails_ite ?_ ?_
    · exact (moveToCow_fails k r _ _ _).bind fun _ => ih _ _
    · exact (applyCow_fails r _ _ _).bind fun _ => ih _ _

def SameQueue (p q : BlockPool n) : Prop := q.freeBlockQueue = p.freeBlockQueue

instance : IsPreorder (BlockPool n) SameQueue where
  refl _ := rfl
  trans _ _ _ h h' := h'.trans h

theorem sameQueue_frame : CopyFrame (SameQueue (n := n)) where
  retain _ _ := rfl
  caching _ _ _ h := h.sameCounts.queue

/-- Copies take nothing out of the free queue. -/
theorem applyPendingCows_outcome (g : Group n) :
    Ensures (applyPendingCows k r allocated cows newBlocks returned) g
      (fun _ t => SameQueue g.pool t.pool)
      (fun e t => Harmless e ∧ SameQueue g.pool t.pool ∧ cows ≠ []) := by
  cases cows with
  | nil => exact rfl
  | cons cow cows =>
    exact ((applyPendingCows_fails k r allocated (cow :: cows) newBlocks returned g).and
      (Mamba.applyPendingCows_frame sameQueue_frame k r allocated (cow :: cows) newBlocks returned
        g)).mono (fun _ _ h => h.2.pool) (fun _ _ h => ⟨h.1, h.2.pool, cons_ne_nil _ _⟩)

/-! ### How many blocks an allocation draws -/

variable (spec : MambaSpec) {α : Type}

def shiftedLength (plan : AllocationPlan n) (length : ℕ) : ℕ :=
  (if length < plan.numSkippedBlocks then max length (plan.numSkippedBlocks - plan.checkpointBlock)
    else length) +
  if plan.blocksAllocated ∧ plan.checkpointBlock = 0 then
    min spec.numSpeculativeBlocks
      (plan.numSkippedBlocks - (length - spec.numSpeculativeBlocks))
  else
    0

def draws (plan : AllocationPlan n) (length : ℕ) : ℕ :=
  plan.numRequiredBlocks - shiftedLength spec plan length + plan.pendingCows.length

theorem length_takeWhile_range' (a count bound : ℕ) :
    ((List.range' a count).takeWhile (· < bound)).length = min count (bound - a) := by
  induction count generalizing a with
  | zero => simp
  | succ count ih =>
    rw [range'_succ]
    by_cases h : a < bound
    · rw [takeWhile_cons_of_pos (by simpa using h), length_cons, ih]
      omega
    · rw [takeWhile_cons_of_neg (by simpa using h)]
      simp
      omega

theorem relocate_spec (l : List ℕ) (g : Group n) : Ensures (forM l (relocateSpeculativeBlock r)) g
      (fun _ t => t.pool = g.pool ∧ tableLength t r = tableLength g r + l.length)
      (fun e t => Harmless e ∧ t.pool = g.pool) := by
  induction l generalizing g with
  | nil => exact ⟨rfl, rfl⟩
  | cons i l ih =>
    rw [forM_cons, ensures_bind, relocateSpeculativeBlock]
    simp only [ensures_bind, ensures_get, ensures_expect, ensures_check, modifyManager,
      ensures_modify]
    refine ⟨fun b _ => ⟨fun _ => ?_, fun _ => ⟨by simp [Harmless], trivial⟩⟩,
      fun _ => ⟨by simp [Harmless, indexError], trivial⟩⟩
    refine (ih _).imp ?_
    rintro _ t ⟨hpool, hlen⟩
    refine ⟨hpool, ?_⟩
    simp only [tableLength, Manager.setBlocks, update_self, length_append,
      length_set, length_cons, length_nil] at hlen ⊢
    omega

theorem padBlocks_length (null : Fin n) (blocks : List (Fin n)) (skipped checkpointBlock : ℕ) :
    (padBlocks null blocks skipped checkpointBlock).length =
      if blocks.length < skipped then max blocks.length (skipped - checkpointBlock)
      else blocks.length := by
  unfold padBlocks
  split_ifs
  · simp
    omega
  · rfl

/-- Padding and relocation make the table longer without drawing a block. -/
theorem shiftBlocks_spec (r : RequestId) (plan : AllocationPlan n) (g : Group n) :
    Ensures (shiftBlocks spec r plan) g
      (fun _ t => t.pool = g.pool ∧ tableLength t r = shiftedLength spec plan (tableLength g r))
      (fun e t => Harmless e ∧ t.pool = g.pool ∧ plan.blocksAllocated = true) := by
  simp only [shiftBlocks, ensures_bind, ensures_get, modifyManager, ensures_modify, ensures_onlyIf]
  refine ⟨fun hmove => ?_, fun hstay => ⟨trivial, ?_⟩⟩
  · refine (relocate_spec r _ _).mono ?_ (fun _ _ h => ⟨h.1, h.2, hmove.1⟩)
    rintro _ t ⟨hpool, hlen⟩
    refine ⟨hpool, hlen.trans ?_⟩
    rw [length_takeWhile_range', shiftedLength, if_pos hmove]
    simp only [tableLength, Manager.setBlocks, update_self, padBlocks_length]
    rfl
  · simp only [tableLength, Manager.setBlocks, update_self, padBlocks_length,
      shiftedLength, if_neg hstay, Nat.add_zero]
    rfl

/-- A draw takes exactly what is asked for, and stops only when fewer are free. -/
theorem getNewBlocks_exact {g : Group n} (hg : Consistent g.pool) (k : ℕ) :
    Ensures (onPool (getNewBlocks k)) g
      (fun r t => r.length = k ∧ t.manager = g.manager ∧ Consistent t.pool ∧ spare t + k = spare g)
      (fun e _ => spare g < k ∧ OutOfBlocks e) := by
  obtain ⟨free, hfree⟩ := hg
  have hcount : spare g = free.length := hfree.count
  rw [onPool, ensures_zoom]
  refine (getNewBlocks_spec hfree k).mono ?_ ?_
  · rintro r q ⟨hk, rfl, hq, -⟩
    refine ⟨by simp; omega, rfl, ⟨_, hq⟩, ?_⟩
    rw [hcount, spare, hq.count, length_drop]
    omega
  · rintro e q ⟨hlt, rfl, rfl⟩
    exact ⟨hcount ▸ hlt, _, rfl⟩

/-- The operation draws exactly `d` blocks; it stops for want of blocks only when
fewer are free, and otherwise only on these grounds. -/
def Draws (op : ManagerM n α) (d : ℕ) (grounds : Prop) (g : Group n) : Prop :=
  Ensures op g (fun _ t => spare t + d = spare g)
    (fun e t => (Harmless e ∧ spare t ≤ spare g ∧ spare g ≤ spare t + d ∧ grounds) ∨
      (spare g < d ∧ OutOfBlocks e))

theorem Draws.weaken {op : ManagerM n α} {grounds grounds' : Prop} {g : Group n}
    (h : Draws op d grounds g) (hgrounds : grounds → grounds') : Draws op d grounds' g := by
  refine h.mono (fun _ _ h => h) ?_
  rintro e t (⟨he, hle, hcount, hg⟩ | hshort)
  · exact .inl ⟨he, hle, hcount, hgrounds hg⟩
  · exact .inr hshort

def cap (plan : AllocationPlan n) : ℕ :=
  physicalBlockCap spec plan.pendingCows.length plan.checkpointBlock plan.blocksAllocated
    plan.materializeNextPage

section
variable (k : ManagerConfig) (spec : MambaSpec) (r : RequestId) (p : Manager n)
  (numTokens main : ℕ)

theorem allocationPlan_required :
    (allocationPlan k spec p r numTokens main).numRequiredBlocks = cdiv main k.blockSize +
      (allocationPlan k spec p r numTokens main).materializeNextPage.toNat +
      spec.numSpeculativeBlocks := by
  simp only [allocationPlan, alignTokensForLookahead]
  split_ifs with h
  · simp only [h, Bool.toNat_true, cdiv_add_self main k.blockSize_pos]
  · simp [h]

theorem allocationPlan_skipped :
    (allocationPlan k spec p r numTokens main).numSkippedBlocks = cdiv main k.blockSize - 1 := by
  simp only [allocationPlan, alignTokensForLookahead]
  split_ifs <;> rfl

/-- What an allocation draws is within the bound that it asserts. -/
theorem draws_le_cap {main : ℕ} (hmain : 0 < main) {length : ℕ}
    (hlength : p.mamba.allocatedBlockReqs r → spec.numSpeculativeBlocks ≤ length) :
    draws spec (allocationPlan k spec p r numTokens main) length ≤
      cap spec (allocationPlan k spec p r numTokens main) := by
  have hpos := cdiv_pos hmain k.blockSize_pos
  have hcheckpoint : (allocationPlan k spec p r numTokens main).checkpointBlock ≤ 1 :=
    Bool.toNat_le _
  have halloc : (allocationPlan k spec p r numTokens main).blocksAllocated →
      spec.numSpeculativeBlocks ≤ length := hlength
  unfold draws shiftedLength cap physicalBlockCap
  rw [allocationPlan_required, allocationPlan_skipped]
  generalize allocationPlan k spec p r numTokens main = plan at *
  generalize plan.blocksAllocated = allocated at *
  generalize plan.materializeNextPage = materialize
  cases allocated <;> cases materialize <;> simp at halloc ⊢ <;> split_ifs <;> omega

/-- Nor does it draw more than what the table lacks and the pending copies. -/
theorem draws_le_missing (plan : AllocationPlan n) (length : ℕ) :
    draws spec plan length ≤ plan.numRequiredBlocks - length + plan.pendingCows.length := by
  unfold draws shiftedLength
  split_ifs <;> omega
end

variable (k : ManagerConfig) (spec : MambaSpec) (r : RequestId) {g : Group n}

/-- The blocks that the table lacks and those of the copies are drawn in one go. -/
theorem drawBlocks_spec (plan : AllocationPlan n) (prevBlockLen : ℕ) (hg : Consistent g.pool)
    (hd : plan.numRequiredBlocks - tableLength g r + plan.pendingCows.length = d)
    (hcap : d ≤ cap spec plan) :
    Draws (drawBlocks k spec r plan prevBlockLen) d (plan.pendingCows ≠ []) g := by
  simp only [Draws, drawBlocks, ensures_bind, ensures_get, ensures_check]
  rw [tableLength] at hd
  rw [hd]
  refine ⟨fun _ => ?_, fun h => absurd hcap h⟩
  refine (getNewBlocks_exact hg d).mono ?_ (fun _ _ h => .inr h)
  rintro newBlocks u ⟨-, -, -, hcount⟩
  rw [modifyManager, ensures_modify]
  refine (applyPendingCows_outcome k r _ _ _ _ _).mono ?_ ?_
  · intro res t ht
    simp only [markAllocated, modifyManager, modifyMamba, ensures_modify, ensures_pure]
    exact (congrArg (fun queue => queue.numFreeBlocks + d) ht).trans hcount
  · rintro e t ⟨he, ht, hcows⟩
    have hsame : spare t = spare u := congrArg (fun queue => queue.numFreeBlocks) ht
    exact .inl ⟨he, by omega, by omega, hcows⟩

/-- `allocate_new_blocks` draws exactly `draws` blocks, and stops on other grounds
than the want of blocks only in a relocation or a copy-on-write. -/
theorem allocateNewBlocks_spec (numTokens : ℕ) {main : ℕ} (hmain : 0 < main)
    (hg : Consistent g.pool) (hlength : g.manager.mamba.allocatedBlockReqs r →
      spec.numSpeculativeBlocks ≤ tableLength g r)
    (hd : draws spec (allocationPlan k spec g.manager r numTokens main) (tableLength g r) = d) :
    Draws (MambaManager.allocateNewBlocks k spec r numTokens main) d
      (g.manager.mamba.allocatedBlockReqs r = true ∨
        (allocationPlan k spec g.manager r numTokens main).pendingCows ≠ []) g := by
  have hcap := draws_le_cap k spec r g.manager numTokens hmain hlength
  simp only [Draws, MambaManager.allocateNewBlocks, ensures_bind, ensures_get, ensures_ite]
  refine ⟨fun hdone => ?_, fun _ => ?_⟩
  · simp only [markAllocated, modifyMamba, modifyManager, ensures_modify, ensures_pure]
    have hmissing := draws_le_missing spec (allocationPlan k spec g.manager r numTokens main)
      (tableLength g r)
    rw [hdone.2.1, length_nil, tableLength, Nat.sub_eq_zero_of_le hdone.1] at hmissing
    exact congrArg (spare g + ·) (hd ▸ Nat.le_zero.mp hmissing)
  · refine (shiftBlocks_spec spec r _ g).mono ?_ ?_
    · rintro _ t ⟨hpool, hlen⟩
      have hdraw := (drawBlocks_spec k spec r (allocationPlan k spec g.manager r numTokens main)
        (tableLength g r) (hpool ▸ hg) (d := d) (by rw [hlen]; exact hd) (hd ▸ hcap)).weaken
        (Or.inr (a := g.manager.mamba.allocatedBlockReqs r = true))
      rw [Draws, spare, hpool] at hdraw
      exact hdraw
    · rintro e t ⟨he, hpool, halloc⟩
      exact .inl ⟨he, by rw [spare, hpool], by rw [spare, spare, hpool]; omega, .inl halloc⟩

/-! ### Attaching the hits and the external state -/

structure Fresh (p : Manager n) (r : RequestId) : Prop where
  blocks : p.reqToBlocks r = []
  idle : p.mamba.allocatedBlockReqs r = false
  noHit : p.partialHitReqs r = none
  noCow : p.mamba.alignedStateCowReqs r = none

/-- What the hits and the external state leave for `allocate_new_blocks`. -/
structure Attached (k : ManagerConfig) (r : RequestId) (hits : List (Fin n))
    (numLocal numExternal : ℕ) (g u : Group n) : Prop where
  consistent : Consistent u.pool
  idle : u.manager.mamba.allocatedBlockReqs r = false
  checkpoint : u.manager.mamba.checkpoints r = g.manager.mamba.checkpoints r
  hit : (u.manager.partialHitReqs r).isSome → k.hasPartialLocalHit hits numLocal ∧
    cdiv (numLocal + numExternal) k.blockSize ≤ hits.length
  cow : (u.manager.mamba.alignedStateCowReqs r).isSome →
    hasAlignedStateCow k g r hits (numLocal + numExternal) numLocal

section
variable {k : ManagerConfig} {r : RequestId} {hits : List (Fin n)} {numLocal numExternal : ℕ}
  {g : Group n}

theorem touchComputed_exact (hg : Consistent g.pool) (blocks : List (Fin n)) :
    Ensures (Base.touchComputed k blocks) g
      (fun _ t => t.manager = g.manager ∧ Consistent t.pool ∧ SameIndex g.pool t.pool ∧
        spare g ≤ spare t + getNumEvictableBlocks g.pool blocks ∧
        (blocks = [] → t.pool = g.pool))
      (fun e t => Harmless e ∧ t.pool = g.pool ∧ blocks ≠ []) := by
  rw [Base.touchComputed, ensures_ite, onPool, ensures_zoom, ensures_check]
  refine ⟨fun _ => ?_, fun _ => ⟨fun hnil => ?_, fun hne => ⟨by simp [Harmless], rfl, hne⟩⟩⟩
  · cases blocks with
    | nil => exact ⟨rfl, hg, refl_of SameIndex _, Nat.le_add_right _ _, fun _ => rfl⟩
    | cons b bs =>
      refine ((touch_spent hg (b :: bs)).and (touch_within (b :: bs) g.pool)).mono ?_
        (fun _ _ h => h.1.elim)
      rintro _ q ⟨hspent, hsame⟩
      exact ⟨rfl, hspent.consistent, hsame, hspent.count, fun h => absurd h (cons_ne_nil _ _)⟩
  · exact ⟨rfl, hg, refl_of SameIndex _, Nat.le_add_right _ _, fun _ => rfl⟩

/-- The bookkeeping of the hits leaves the flags of the request alone; a hit
becomes pending only if it ends inside a block. -/
theorem attachComputed_flags (k : ManagerConfig) (hits : List (Fin n)) (numLocal : ℕ)
    {p : Manager n} (hp : Fresh p r) (null : Fin n) (skipped : ℕ) :
    (Base.attachComputed k p null r skipped (hits.drop skipped) numLocal).mamba = p.mamba ∧
      (((Base.attachComputed k p null r skipped (hits.drop skipped) numLocal).partialHitReqs
        r).isSome → k.hasPartialLocalHit hits numLocal ∧ skipped < hits.length) := by
  refine ⟨?_, fun hsome => ⟨?_, ?_⟩⟩
  · exact attachComputed_mamba ..
  · have hle := attachComputed_tail (k := k) (r := r) p null skipped hits numLocal hp.noHit
    rw [hsome] at hle
    exact Bool.toNat_eq_one.mp (le_antisymm (Bool.toNat_le _) hle)
  · by_contra hle
    rw [drop_eq_nil_of_le (Nat.le_of_not_lt hle)] at hsome
    simp [Base.attachComputed, Manager.setNumCachedBlock, Manager.setBlocks, hp.noHit] at hsome

variable {spec : MambaSpec} {α : Type} {main : ℕ}

section
variable (hk : k.kind = .mamba spec)
include hk

theorem numSkippedBlocks_mamba (tokens : ℕ) :
    k.numSkippedBlocks tokens = cdiv tokens k.blockSize - 1 := by
  have hpos := k.blockSize_pos
  unfold ManagerConfig.numSkippedBlocks ManagerConfig.getNumSkippedTokens cdiv
  rw [hk]
  dsimp only
  rcases Nat.eq_zero_or_pos tokens with rfl | htokens
  · rw [Nat.zero_sub, Nat.zero_div, Nat.div_eq_of_lt (by omega)]
  · rw [show tokens + k.blockSize - 1 = tokens - 1 + k.blockSize by omega,
      Nat.add_div_right _ hpos, Nat.add_sub_cancel]

section
variable (hshape : hits.length ≤ cdiv numLocal k.blockSize)
include hshape

/-- The last block of the hits is the one at the index of a full-block hit. -/
theorem aligned_source (hlocal : 0 < numLocal)
    (haligned : numLocal % k.blockSize = 0) (null source : Fin n)
    (hsource : (List.replicate (k.numSkippedBlocks numLocal) null ++
      hits.drop (k.numSkippedBlocks numLocal))[numLocal / k.blockSize - 1]? = some source) :
    hits.getLast? = some source := by
  have hpos := k.blockSize_pos
  have hcdiv : cdiv numLocal k.blockSize = numLocal / k.blockSize := by
    obtain ⟨q, rfl⟩ := Nat.dvd_of_mod_eq_zero haligned
    rw [cdiv, Nat.mul_div_cancel_left _ hpos, Nat.add_sub_assoc hpos, Nat.mul_add_div hpos,
      Nat.div_eq_of_lt (by omega), Nat.add_zero]
  rw [numSkippedBlocks_mamba hk, hcdiv, getElem?_append_right (by simp),
    length_replicate, Nat.sub_self, getElem?_drop, Nat.add_zero] at hsource
  rcases hshape.lt_or_eq with hshort | hlength
  · rw [getElem?_eq_none (by omega)] at hsource
    cases hsource
  · rw [getLast?_eq_getElem?, hlength, hcdiv]
    exact hsource

theorem attachAlignedState_attached
    (hu : Attached k r hits numLocal numExternal g u) (hindex : SameIndex g.pool u.pool)
    (null : Fin n) (hblocks : u.manager.reqToBlocks r =
      List.replicate (k.numSkippedBlocks (numLocal + numExternal)) null ++
        hits.drop (k.numSkippedBlocks (numLocal + numExternal))) :
    Ensures (attachAlignedState k r numLocal numExternal) u
      (fun _ v => Attached k r hits numLocal numExternal g v ∧ v.pool = u.pool ∧
        tableLength v r = tableLength u r) (fun _ _ => False) := by
  rw [attachAlignedState, ensures_bind, ensures_get, ensures_onlyIf]
  refine ⟨fun hcond => ?_, fun _ => ⟨hu, rfl, rfl⟩⟩
  obtain ⟨rfl, hlocal, haligned⟩ := hcond
  dsimp only
  split
  · exact ⟨hu, rfl, rfl⟩
  · next source hsource =>
    rw [ensures_onlyIf, modifyMamba, modifyManager, ensures_modify]
    refine ⟨fun hpublished => ?_, fun _ => ⟨hu, rfl, rfl⟩⟩
    rw [hblocks, Nat.add_zero] at hsource
    have hlast := aligned_source hk hshape hlocal haligned null source hsource
    rw [hindex.isNull, hindex.blockHash] at hpublished
    refine ⟨⟨hu.consistent, hu.idle, hu.checkpoint, hu.hit, fun _ => ?_⟩, rfl, rfl⟩
    simp only [hasAlignedStateCow, Nat.add_zero, hlast, decide_eq_true_eq]
    exact .inr ⟨trivial, hlocal, haligned, source, rfl, hpublished⟩

/-- The hits leave a private copy pending where the state would be overwritten. -/
theorem addLocalComputedBlocks_attached (hg : Consistent g.pool) (hfresh : Fresh g.manager r) :
    Ensures (MambaManager.addLocalComputedBlocks k r hits numLocal numExternal) g
      (fun _ u => Attached k r hits numLocal numExternal g u ∧
        tableLength u r = max (cdiv (numLocal + numExternal) k.blockSize - 1) hits.length ∧
        spare g ≤ spare u + getNumEvictableBlocks g.pool hits ∧
        (hits.length < cdiv (numLocal + numExternal) k.blockSize → spare u = spare g))
      (fun e u => Harmless e ∧ u.pool = g.pool ∧
        cdiv (numLocal + numExternal) k.blockSize ≤ hits.length) := by
  obtain ⟨free, hfree⟩ := hg
  have hdrop := hits.drop_sublist (k.numSkippedBlocks (numLocal + numExternal))
  have hevict := getNumEvictableBlocks_le ⟨free, hfree⟩ (.refl g.pool) hdrop
  have hskipped := numSkippedBlocks_mamba hk (numLocal + numExternal)
  simp only [MambaManager.addLocalComputedBlocks, Base.addLocalComputedBlocks, ensures_bind,
    ensures_get, ensures_check]
  refine ⟨fun _ => ?_, fun h => absurd hfresh.blocks h⟩
  refine (touchComputed_exact ⟨free, hfree⟩ _).mono ?_ ?_
  · rintro _ t ⟨hmanager, hconsistent, hindex, hcount, hsame⟩
    obtain ⟨hmamba, hhit⟩ := attachComputed_flags k hits numLocal hfresh g.pool.nullBlock
      (k.numSkippedBlocks (numLocal + numExternal))
    rw [modifyManager, ensures_modify, hmanager]
    have hattached : Attached k r hits numLocal numExternal g
        ⟨t.pool, Base.attachComputed k g.manager g.pool.nullBlock r
          (k.numSkippedBlocks (numLocal + numExternal))
          (hits.drop (k.numSkippedBlocks (numLocal + numExternal))) numLocal⟩ := by
      refine ⟨hconsistent, ?_, ?_, fun h => ⟨(hhit h).1, ?_⟩, fun hcow => ?_⟩
      · exact (congrArg (fun s => s.allocatedBlockReqs r) hmamba).trans hfresh.idle
      · exact congrArg (fun s => s.checkpoints r) hmamba
      · have := (hhit h).2
        omega
      · have hnone := (congrArg (fun s => s.alignedStateCowReqs r) hmamba).trans hfresh.noCow
        dsimp only at hcow hnone
        rw [hnone] at hcow
        cases hcow
    refine (attachAlignedState_attached hk hshape hattached hindex g.pool.nullBlock
      (attachComputed_blocks ..)).mono ?_ (fun _ _ h => h.elim)
    rintro _ v ⟨hv, hpool, hlength⟩
    refine ⟨hv, hlength.trans ?_, ?_, fun hlt => ?_⟩
    · simp only [tableLength, attachComputed_blocks, length_append, length_replicate,
        length_drop, hskipped]
      omega
    · rw [spare, spare, hpool]
      exact hcount.trans (Nat.add_le_add_left hevict _)
    · rw [spare, hpool]
      exact congrArg getNumFreeBlocks (hsame (drop_eq_nil_of_le (by omega)))
  · rintro e t ⟨he, hpool, hne⟩
    refine ⟨he, hpool, ?_⟩
    rw [Ne, drop_eq_nil_iff, hskipped] at hne
    omega
end

omit hk in
theorem extendBlocks_exact (hg : Consistent g.pool) (j : ℕ) : Ensures (Base.extendBlocks k r j) g
      (fun bs t => bs.length = j ∧ Consistent t.pool ∧ spare t + j = spare g ∧
        t.manager = (g.manager.setBlocks r (g.manager.reqToBlocks r ++ bs)).recordBlocks k bs)
      (fun e _ => spare g < j ∧ OutOfBlocks e) := by
  simp only [Base.extendBlocks, ensures_bind, modifyManager, ensures_modify, ensures_pure]
  refine (getNewBlocks_exact hg j).imp ?_
  rintro bs t ⟨hlen, hmanager, hconsistent, hcount⟩
  exact ⟨hlen, hconsistent, hcount, hmanager ▸ rfl⟩

/-- The block for an external state, one unless the hits reach into the last
block. -/
theorem allocateExternalComputedBlocks_attached (hexternal : 0 < numExternal)
    (hu : Attached k r hits numLocal numExternal g u) {j : ℕ}
    (hj : cdiv (numLocal + numExternal) k.blockSize - tableLength u r = j) :
    Ensures (Base.allocateExternalComputedBlocks k r numLocal numExternal) u
      (fun _ v => Attached k r hits numLocal numExternal g v ∧
        tableLength v r = tableLength u r + j ∧
        spare v + j = spare u)
      (fun e _ => spare u < j ∧ OutOfBlocks e) := by
  have hskipped : k.getNumSkippedTokens (numLocal + numExternal) = numLocal + numExternal - 1 := by
    rw [ManagerConfig.getNumSkippedTokens, hk]
  simp only [Base.allocateExternalComputedBlocks, ensures_bind, ensures_get, ensures_onlyIf,
    ensures_discard, hskipped]
  refine ⟨fun _ => ?_, fun hnone => ?_⟩
  · rw [tableLength] at hj
    rw [hj]
    refine (extendBlocks_exact hu.consistent j).imp ?_
    rintro bs v ⟨hlen, hconsistent, hcount, hmanager⟩
    refine ⟨⟨hconsistent, ?_, ?_, ?_, ?_⟩, ?_, hcount⟩
    · rw [hmanager]
      exact hu.idle
    · rw [hmanager]
      exact hu.checkpoint
    · rw [hmanager]
      exact hu.hit
    · rw [hmanager]
      exact hu.cow
    · simp [tableLength, hmanager, Manager.recordBlocks, Manager.setBlocks, hlen]
  · split_ifs at hnone <;> omega
end

def externalBlocks (k : ManagerConfig) (hits : List (Fin n)) (numLocal numExternal : ℕ) : ℕ :=
  if 0 < numExternal ∧ hits.length < cdiv (numLocal + numExternal) k.blockSize then 1 else 0

def attachBlocks (k : ManagerConfig) (r : RequestId) (hits : List (Fin n))
    (numLocal numExternal : ℕ) : ManagerM n PUnit := do
  Manager.addLocalComputedBlocks k r hits numLocal numExternal
  onlyIf (0 < numExternal) (Manager.allocateExternalComputedBlocks k r numLocal numExternal)

/-- A state that a connector loads takes one more block. -/
theorem attachBlocks_attached (hk : k.kind = .mamba spec)
    (hshape : hits.length ≤ cdiv numLocal k.blockSize) (hg : Consistent g.pool)
    (hfresh : Fresh g.manager r) {x : ℕ} (hx : externalBlocks k hits numLocal numExternal = x) :
    Ensures (attachBlocks k r hits numLocal numExternal) g
      (fun _ u => Attached k r hits numLocal numExternal g u ∧
        tableLength u r = max (cdiv (numLocal + numExternal) k.blockSize - 1) hits.length + x ∧
        spare g ≤ spare u + getNumEvictableBlocks g.pool hits + x ∧
        (hits.length < cdiv (numLocal + numExternal) k.blockSize → spare u + x = spare g))
      (fun e u => (Harmless e ∧ u.pool = g.pool ∧
          cdiv (numLocal + numExternal) k.blockSize ≤ hits.length) ∨
        (spare g < x ∧ OutOfBlocks e)) := by
  simp only [attachBlocks, Manager.addLocalComputedBlocks, Manager.allocateExternalComputedBlocks,
    hk, ensures_bind, ensures_onlyIf]
  refine (addLocalComputedBlocks_attached hk hshape hg hfresh).mono ?_ (fun _ _ h => .inl h)
  rintro _ u ⟨hu, hlength, hcount, hexact⟩
  unfold externalBlocks at hx
  refine ⟨fun hexternal => ?_, fun hnone => ?_⟩
  · have hpos := cdiv_pos (show 0 < numLocal + numExternal by omega) k.blockSize_pos
    have hdraw : cdiv (numLocal + numExternal) k.blockSize - tableLength u r = x := by
      rw [hlength, ← hx]
      split_ifs <;> omega
    refine (allocateExternalComputedBlocks_attached hk hexternal hu hdraw).mono ?_ ?_
    · rintro _ v ⟨hv, hlength', hcount'⟩
      exact ⟨hv, by omega, by omega, fun h => by have := hexact h; omega⟩
    · rintro e v ⟨hshort, he⟩
      -- a draw that fails asks for a block, so no hit was touched
      have hlt : hits.length < cdiv (numLocal + numExternal) k.blockSize := by
        split_ifs at hx <;> omega
      exact .inr ⟨hexact hlt ▸ hshort, he⟩
  · rw [if_neg fun h => hnone h.1] at hx
    subst hx
    exact ⟨hu, hlength, hcount, hexact⟩

def freshCows (k : ManagerConfig) (r : RequestId) (hits : List (Fin n))
    (numLocal numExternal : ℕ) (g : Group n) : ℕ :=
  (k.hasPartialLocalHit hits numLocal).toNat +
    (hasAlignedStateCow k g r hits (numLocal + numExternal) numLocal).toNat

theorem length_toList (o : Option α) : o.toList.length = o.isSome.toNat := by
  cases o <;> rfl

theorem length_toList_le {o : Option α} {b : Bool} (h : o.isSome → b) :
    o.toList.length ≤ b.toNat := by
  rw [length_toList]
  exact Bool.toNat_le_toNat h

/-- The copies pending after the hits are attached are among the predicted
ones; with an external block there are none. -/
theorem Attached.pendingCows (hu : Attached k r hits numLocal numExternal g u)
    (hfresh : Fresh g.manager r) (spec : MambaSpec) (numTokens main : ℕ) :
    (allocationPlan k spec u.manager r numTokens main).pendingCows.length ≤
        freshCows k r hits numLocal numExternal g ∧
      (0 < numExternal ∧ hits.length < cdiv (numLocal + numExternal) k.blockSize →
        (allocationPlan k spec u.manager r numTokens main).pendingCows = []) := by
  refine ⟨?_, fun ⟨hexternal, hshort⟩ => ?_⟩
  · have hhit := length_toList_le fun h => (hu.hit h).1
    have hcow := length_toList_le hu.cow
    simp only [allocationPlan, length_append, freshCows]
    omega
  · have hhit : u.manager.partialHitReqs r = none := by
      by_contra h
      have := (hu.hit (Option.isSome_iff_ne_none.mpr h)).2
      omega
    have hcow : u.manager.mamba.alignedStateCowReqs r = none := by
      by_contra h
      have haligned := hu.cow (Option.isSome_iff_ne_none.mpr h)
      simp only [hasAlignedStateCow, hfresh.noCow, decide_eq_true_eq] at haligned
      rcases haligned with hsome | ⟨htotal, -⟩
      · cases hsome
      · omega
    simp [allocationPlan, hhit, hcow]

/-- Attaching hits changes the draws by the copies that became pending. -/
theorem Attached.draws (hu : Attached k r hits numLocal numExternal g u)
    (hfresh : Fresh g.manager r) (spec : MambaSpec) (numTokens main length : ℕ) :
    draws spec (allocationPlan k spec u.manager r numTokens main) length =
      draws spec (allocationPlan k spec g.manager r numTokens main) length +
        (allocationPlan k spec u.manager r numTokens main).pendingCows.length := by
  have hnone : (allocationPlan k spec g.manager r numTokens main).pendingCows = [] := by
    simp [allocationPlan, hfresh.noHit, hfresh.noCow]
  have hshifted : shiftedLength spec (allocationPlan k spec u.manager r numTokens main) length =
      shiftedLength spec (allocationPlan k spec g.manager r numTokens main) length := by
    simp only [shiftedLength, allocationPlan, hu.idle, hu.checkpoint, hfresh.idle]
  rw [MambaPrediction.draws, MambaPrediction.draws, hnone, hshifted, length_nil, Nat.add_zero]
  rfl

/-! ### What a first allocation takes -/

/-- The blocks that one group takes for an allocation: hits and external state
of a request that is new to it, then the new blocks. -/
def groupTakes (k : ManagerConfig) (r : RequestId) (hits : List (Fin n))
    (numLocal numExternal numTokens main : ℕ) (first : Bool) : ManagerM n PUnit := do
  onlyIf first (attachBlocks k r hits numLocal numExternal)
  discard <| Manager.allocateNewBlocks k r numTokens main

/-- The operation takes at most `k` blocks out of the free queue, and is
stopped neither for want of blocks nor by the bound on new blocks. -/
def NeverShort (op : ManagerM n PUnit) (k : ℤ) (g : Group n) : Prop :=
  Ensures op g
    (fun _ t => (g.pool.getNumFreeBlocks : ℤ) - t.pool.getNumFreeBlocks ≤ k)
    (fun e t => (g.pool.getNumFreeBlocks : ℤ) - t.pool.getNumFreeBlocks ≤ k ∧ Harmless e)

/-- The most a first allocation takes: the touched hits, the external block, the
new blocks and the copies. With an external block no hit is touched and nothing
is copied, so the number is exact. -/
def freshCost (k : ManagerConfig) (spec : MambaSpec) (r : RequestId) (hits : List (Fin n))
    (numLocal numExternal numTokens main : ℕ) (g : Group n) : ℕ :=
  let short : Bool := hits.length < cdiv (numLocal + numExternal) k.blockSize
  let x := externalBlocks k hits numLocal numExternal
  (if short then 0 else getNumEvictableBlocks g.pool hits) + x +
    draws spec (allocationPlan k spec g.manager r numTokens main)
      (max (cdiv (numLocal + numExternal) k.blockSize - 1) hits.length + x) +
    if 0 < numExternal ∧ short then 0 else freshCows k r hits numLocal numExternal g

/-- What a first allocation takes in all, in either outcome. -/
theorem groupTakes_fresh (hk : k.kind = .mamba spec)
    (hshape : hits.length ≤ cdiv numLocal k.blockSize) (hg : Consistent g.pool)
    (hfresh : Fresh g.manager r) (numTokens : ℕ) (hmain : 0 < main) {cost : ℕ}
    (hcost : freshCost k spec r hits numLocal numExternal numTokens main g = cost) :
    Ensures (groupTakes k r hits numLocal numExternal numTokens main true) g
      (fun _ t => spare g ≤ spare t + cost ∧
        (0 < numExternal ∧ hits.length < cdiv (numLocal + numExternal) k.blockSize →
          spare t + cost = spare g))
      (fun e t => (Harmless e ∧ spare g ≤ spare t + cost ∧
          ¬ (0 < numExternal ∧ hits.length < cdiv (numLocal + numExternal) k.blockSize)) ∨
        (spare g < cost ∧ OutOfBlocks e)) := by
  simp only [groupTakes, Manager.allocateNewBlocks, hk, ensures_bind, ensures_onlyIf,
    ensures_discard]
  refine ⟨fun _ => ?_, fun h => absurd trivial h⟩
  simp only [freshCost, decide_eq_true_eq] at hcost
  refine (attachBlocks_attached hk hshape hg hfresh rfl).mono ?_ ?_
  · rintro _ u ⟨hu, hlength, hcount, hexact⟩
    obtain ⟨hcows, hnone⟩ := hu.pendingCows hfresh spec numTokens main
    have hdraws := hu.draws hfresh spec numTokens main (tableLength u r)
    have hidle : u.manager.mamba.allocatedBlockReqs r →
        spec.numSpeculativeBlocks ≤ tableLength u r := fun h => by
      rw [hu.idle] at h
      cases h
    rw [← hlength] at hcost
    have hspent : spare g + draws spec
          (allocationPlan k spec u.manager r numTokens main) (tableLength u r) ≤
        spare u + cost ∧
        (0 < numExternal ∧ hits.length < cdiv (numLocal + numExternal) k.blockSize →
          spare g + draws spec
              (allocationPlan k spec u.manager r numTokens main) (tableLength u r) =
            spare u + cost) := by
      by_cases hshort : hits.length < cdiv (numLocal + numExternal) k.blockSize
      · have := hexact hshort
        by_cases hexternal : 0 < numExternal
        · have hpending := congrArg List.length (hnone ⟨hexternal, hshort⟩)
          rw [length_nil] at hpending
          simp only [hshort, hexternal, and_self, if_true] at hcost
          exact ⟨by omega, fun _ => by omega⟩
        · simp only [hshort, hexternal, false_and, if_true, if_false] at hcost
          exact ⟨by omega, fun h => absurd h.1 hexternal⟩
      · simp only [hshort, and_false, if_false] at hcost
        exact ⟨by omega, fun h => absurd h.2 hshort⟩
    refine (allocateNewBlocks_spec k spec r numTokens hmain hu.consistent hidle rfl).mono ?_ ?_
    · intro _ t hcount'
      exact ⟨by omega, fun h => by have := hspent.2 h; omega⟩
    · rintro e t (⟨he, hle, hcount', hgrounds⟩ | ⟨hshort, he⟩)
      · refine .inl ⟨he, by omega, fun h => ?_⟩
        rcases hgrounds with halloc | hcows
        · rw [hu.idle] at halloc
          cases halloc
        · exact hcows (hnone h)
      · exact .inr ⟨by omega, he⟩
  · rintro e u (⟨he, hpool, hle⟩ | ⟨hshort, he⟩)
    · exact .inl ⟨he, by rw [spare, spare, hpool]; omega, fun h => by omega⟩
    · exact .inr ⟨by omega, he⟩

def planCheckpoint (k : ManagerConfig) (spec : MambaSpec) (r : RequestId) (total main : ℕ)
    (g : Group n) : Group n :=
  { g with
    manager :=
      { g.manager with
        mamba :=
          { g.manager.mamba with
            checkpoints := Function.update g.manager.mamba.checkpoints r
              (plannedCheckpoint k spec g r total main) } } }

/-- A checkpoint is planned only for a chunk that leaves a whole column between
its first and its last state. -/
theorem plannedCheckpoint_columns (h : (plannedCheckpoint k spec g r total main).isSome) :
    cdiv total k.blockSize + 1 < cdiv main k.blockSize := by
  have hpos := k.blockSize_pos
  have hcolumn : ((cdiv total k.blockSize : ℕ) : ℤ) = ((total : ℤ) - 1) / k.blockSize + 1 := by
    have hne : (k.blockSize : ℤ) ≠ 0 := by omega
    rw [← Int.add_mul_ediv_right _ 1 hne, cdiv, Int.natCast_ediv]
    congr 1
    omega
  simp only [plannedCheckpoint] at h
  split_ifs at h with hneeds
  · obtain ⟨-, hneeds⟩ := hneeds
    simp only [needsInternalCheckpoint, decide_eq_true_eq] at hneeds
    have hvalid := hneeds.2.1
    unfold isMambaPrefillCheckpointValid at hvalid
    split at hvalid
    · cases hvalid
    · simp only [decide_eq_true_eq] at hvalid
      omega
  · cases h

theorem predictedNewBlocks_eq (numTokens main total : ℕ) :
    predictedNewBlocks k spec g r numTokens main hits total numLocal =
      let base : ℤ := (allocationPlan k spec g.manager r numTokens main).numRequiredBlocks -
        hits.length - (g.manager.reqToBlocks r).length
      let hasPartialHit : Bool :=
        k.hasPartialLocalHit hits numLocal || (g.manager.partialHitReqs r).isSome
      let cows := hasPartialHit.toNat + (hasAlignedStateCow k g r hits total numLocal).toNat
      let blocks := if cows ≠ 0 then max base 0 + cows else base
      if 0 < blocks then
        min blocks (physicalBlockCap spec cows
          (plannedCheckpoint k spec g r total main).isSome.toNat
          (g.manager.mamba.allocatedBlockReqs r)
          (allocationPlan k spec g.manager r numTokens main).materializeNextPage)
      else
        blocks := rfl

/-- The prediction for a first allocation, with the copies that its hits will need. -/
theorem predictedNewBlocks_fresh (hfresh : Fresh g.manager r) {numTokens : ℕ}
    (hlength : hits.length ≤ cdiv main k.blockSize) {cows : ℕ}
    (hcows : (k.hasPartialLocalHit hits numLocal).toNat +
      (hasAlignedStateCow k g r hits total numLocal).toNat = cows) :
    predictedNewBlocks k spec g r numTokens main hits total numLocal =
      (min ((allocationPlan k spec g.manager r numTokens main).numRequiredBlocks - hits.length +
          cows)
        (physicalBlockCap spec cows (plannedCheckpoint k spec g r total main).isSome.toNat false
          (allocationPlan k spec g.manager r numTokens main).materializeNextPage) : ℕ) := by
  have hrequired := allocationPlan_required k spec r g.manager numTokens main
  simp only [predictedNewBlocks_eq, hfresh.blocks, hfresh.idle, hfresh.noHit, Option.isSome_none,
    Bool.or_false, hcows, length_nil]
  generalize physicalBlockCap spec cows _ _ _ = cap
  split_ifs <;> omega

theorem draws_fresh (hfresh : Fresh g.manager r) (numTokens total main length : ℕ) :
    draws spec (allocationPlan k spec (planCheckpoint k spec r total main g).manager r numTokens
        main) length =
      cdiv main k.blockSize +
        (allocationPlan k spec g.manager r numTokens main).materializeNextPage.toNat +
        spec.numSpeculativeBlocks -
        if length < cdiv main k.blockSize - 1 then
          max length (cdiv main k.blockSize - 1 -
            (plannedCheckpoint k spec g r total main).isSome.toNat)
        else
          length := by
  have hplan :
      allocationPlan k spec (planCheckpoint k spec r total main g).manager r numTokens main =
      { allocationPlan k spec g.manager r numTokens main with
        checkpointBlock := (plannedCheckpoint k spec g r total main).isSome.toNat
        blocksAllocated := false
        pendingCows := [] } := by
    simp [allocationPlan, planCheckpoint, hfresh.idle, hfresh.noHit, hfresh.noCow]
  rw [hplan, draws, shiftedLength]
  dsimp only
  rw [allocationPlan_required, allocationPlan_skipped]
  simp

section
variable (hshape : hits.length ≤ cdiv numLocal k.blockSize)
include hshape

theorem length_le_cdiv_total (numExternal : ℕ) :
    hits.length ≤ cdiv (numLocal + numExternal) k.blockSize :=
  hshape.trans (Nat.div_le_div_right (by omega))

/-- Hits that reach into the last block of a longer external prefix end inside
it. -/
theorem partialHit_of_length_eq (hexternal : 0 < numExternal)
    (hlength : hits.length = cdiv (numLocal + numExternal) k.blockSize) :
    k.hasPartialLocalHit hits numLocal = true := by
  have hpos := k.blockSize_pos
  have hne : hits ≠ [] := by
    rintro rfl
    have := cdiv_pos (show 0 < numLocal + numExternal by omega) hpos
    rw [length_nil] at hlength
    omega
  have hmod : numLocal % k.blockSize ≠ 0 := by
    intro hmod
    obtain ⟨q, rfl⟩ := Nat.dvd_of_mod_eq_zero hmod
    have hstep : cdiv (k.blockSize * q) k.blockSize <
        cdiv (k.blockSize * q + numExternal) k.blockSize := by
      unfold cdiv
      rw [Nat.add_sub_assoc hpos, Nat.add_assoc, Nat.add_sub_assoc (by omega),
        Nat.mul_add_div hpos, Nat.mul_add_div hpos, Nat.div_eq_of_lt (by omega)]
      have := Nat.div_pos (show k.blockSize ≤ numExternal + k.blockSize - 1 by omega) hpos
      omega
    omega
  simp [ManagerConfig.hasPartialLocalHit, hne, hmod]
end

variable {spec : MambaSpec} {main : ℕ}

/-- A first allocation is covered unless its external state comes on top of the
bound on new blocks. -/
theorem freshCost_le_iff (spec : MambaSpec) (hfresh : Fresh g.manager r)
    (hshape : hits.length ≤ cdiv numLocal k.blockSize) (numTokens : ℕ)
    (hmain : numLocal + numExternal ≤ main) :
    (freshCost k spec r hits numLocal numExternal numTokens main
        (planCheckpoint k spec r (numLocal + numExternal) main g) : ℤ) ≤
      predictedNewBlocks k spec g r numTokens main hits (numLocal + numExternal) numLocal +
        getNumEvictableBlocks g.pool hits ↔
    numExternal = 0 ∨ cdiv main k.blockSize ≤ cdiv (numLocal + numExternal) k.blockSize ∨
      k.hasPartialLocalHit hits numLocal ∨ 0 < getNumEvictableBlocks g.pool hits := by
  have hcolumns : (plannedCheckpoint k spec g r (numLocal + numExternal) main).isSome →
      cdiv (numLocal + numExternal) k.blockSize + 1 < cdiv main k.blockSize :=
    plannedCheckpoint_columns
  have hmono : cdiv (numLocal + numExternal) k.blockSize ≤ cdiv main k.blockSize :=
    Nat.div_le_div_right (by omega)
  have hlength := length_le_cdiv_total hshape numExternal
  have hcows : freshCows k r hits numLocal numExternal
      (planCheckpoint k spec r (numLocal + numExternal) main g) =
      freshCows k r hits numLocal numExternal g := rfl
  rw [predictedNewBlocks_fresh hfresh (hlength.trans hmono) rfl, allocationPlan_required, freshCost,
    draws_fresh hfresh, hcows, freshCows]
  unfold physicalBlockCap externalBlocks
  dsimp only [planCheckpoint]
  have hlast : 0 < numExternal → hits.length = cdiv (numLocal + numExternal) k.blockSize →
      k.hasPartialLocalHit hits numLocal = true := partialHit_of_length_eq hshape
  have haligned : 0 < numExternal →
      hasAlignedStateCow k g r hits (numLocal + numExternal) numLocal = false := by
    intro hexternal
    simp [hasAlignedStateCow, hfresh.noCow, hexternal.ne']
  generalize k.hasPartialLocalHit hits numLocal = hit at *
  generalize hasAlignedStateCow k g r hits (numLocal + numExternal) numLocal = cow at *
  generalize (plannedCheckpoint k spec g r (numLocal + numExternal) main).isSome = planned at *
  generalize (allocationPlan k spec g.manager r numTokens main).materializeNextPage = page
  generalize cdiv (numLocal + numExternal) k.blockSize = C at *
  generalize cdiv main k.blockSize = M at *
  have hplanned : planned.toNat = 0 ∨ C + 1 < M := by
    cases planned with
    | false => exact .inl rfl
    | true => exact .inr (hcolumns rfl)
  have hpage : (if page = true then 1 else 0) = page.toNat := by cases page <;> rfl
  have hle := Bool.toNat_le planned
  simp only [decide_eq_true_eq, true_or, if_true, hpage]
  rcases Nat.eq_zero_or_pos numExternal with rfl | hexternal
  · simp only [Nat.lt_irrefl, false_and, if_false, true_or, iff_true]
    split_ifs <;> omega
  · rw [haligned hexternal]
    simp only [hexternal, true_and, hexternal.ne', false_or, Bool.toNat_false]
    rcases hlength.lt_or_eq with hshort | hfull
    · simp only [hshort, if_true]
      cases hit <;> simp only [Bool.toNat_true, Bool.toNat_false, true_or, or_true, iff_true] <;>
        split_ifs <;> simp <;> omega
    · rw [hlast hexternal hfull]
      simp only [hfull, Nat.lt_irrefl, if_false, true_or, or_true, iff_true, Bool.toNat_true]
      split_ifs <;> omega

/-! ### What a running request takes -/

theorem le_capped_iff {required length cows cap : ℕ} (hmissing : d ≤ required - length + cows)
    (hcap : d ≤ cap) :
    ((d : ℤ) ≤
      let base : ℤ := (required : ℤ) - length
      let blocks := if cows ≠ 0 then max base 0 + cows else base
      if 0 < blocks then min blocks cap else blocks) ↔ cows ≠ 0 ∨ length ≤ required := by
  dsimp only
  split_ifs <;> omega

/-- Without hits the prediction is short only if it is negative: the table is
longer than required and no copy is pending. -/
theorem draws_le_predicted_iff (numTokens total : ℕ) (hmain : 0 < main)
    (hidle : g.manager.mamba.allocatedBlockReqs r → spec.numSpeculativeBlocks ≤ tableLength g r)
    (hd : d = 0 ∨ d = draws spec (allocationPlan k spec
      (planCheckpoint k spec r total main g).manager r numTokens main) (tableLength g r)) :
    (d : ℤ) ≤ predictedNewBlocks k spec g r numTokens main [] total numLocal ↔
      (g.manager.partialHitReqs r).isSome ∨ (g.manager.mamba.alignedStateCowReqs r).isSome ∨
        tableLength g r ≤ (allocationPlan k spec g.manager r numTokens main).numRequiredBlocks := by
  set plan := allocationPlan k spec g.manager r numTokens main with hplan
  set plan' := allocationPlan k spec (planCheckpoint k spec r total main g).manager r numTokens main
    with hplan'
  have hcheckpoint : plan'.checkpointBlock =
      (plannedCheckpoint k spec g r total main).isSome.toNat := by
    simp [hplan', allocationPlan, planCheckpoint]
  have hcows : plan'.pendingCows.length = (g.manager.partialHitReqs r).isSome.toNat +
      (g.manager.mamba.alignedStateCowReqs r).isSome.toNat := by
    simp [hplan', allocationPlan, planCheckpoint, length_toList]
  have hmissing := draws_le_missing spec plan' (tableLength g r)
  have hcap := draws_le_cap k spec r (planCheckpoint k spec r total main g).manager numTokens hmain
    hidle
  rw [← hplan', cap, hcheckpoint, hcows] at hcap
  rw [hcows] at hmissing
  have hnoHit : k.hasPartialLocalHit ([] : List (Fin n)) numLocal = false := by
    simp [ManagerConfig.hasPartialLocalHit]
  have hnoCow : hasAlignedStateCow k g r [] total numLocal =
      (g.manager.mamba.alignedStateCowReqs r).isSome := by
    simp [hasAlignedStateCow]
  rw [predictedNewBlocks_eq, hnoHit, hnoCow, Bool.false_or, length_nil, Nat.cast_zero,
    Int.sub_zero]
  refine (le_capped_iff (d := d) ?_ ?_).trans ?_
  · rcases hd with rfl | rfl
    · exact Nat.zero_le _
    · exact hmissing
  · rcases hd with rfl | rfl
    · exact Nat.zero_le _
    · exact hcap
  · rw [← or_assoc]
    refine or_congr_left ?_
    cases (g.manager.partialHitReqs r).isSome <;>
      cases (g.manager.mamba.alignedStateCowReqs r).isSome <;> simp

/-- What the allocation of a running request takes in all. -/
theorem groupTakes_running (hk : k.kind = .mamba spec) (numTokens : ℕ) (hmain : 0 < main)
    (hg : Consistent g.pool) (hidle : g.manager.mamba.allocatedBlockReqs r →
      spec.numSpeculativeBlocks ≤ tableLength g r)
    (hd : draws spec (allocationPlan k spec g.manager r numTokens main) (tableLength g r) = d) :
    Draws (groupTakes k r hits numLocal numExternal numTokens main false) d True g := by
  simp only [Draws, groupTakes, Manager.allocateNewBlocks, hk, ensures_bind, ensures_onlyIf,
    ensures_discard]
  refine ⟨fun h => absurd h (by simp), fun _ => ?_⟩
  exact (allocateNewBlocks_spec k spec r numTokens hmain hg hidle hd).weaken fun _ => trivial

/-- Hits for a request that has blocks fail before anything is drawn. -/
theorem groupTakes_blocked (hk : k.kind = .mamba spec) (numTokens main : ℕ)
    (hne : g.manager.reqToBlocks r ≠ []) :
    Ensures (groupTakes k r hits numLocal numExternal numTokens main true) g
      (fun _ _ => False) (fun e t => Harmless e ∧ t = g) := by
  simp only [groupTakes, attachBlocks, Manager.addLocalComputedBlocks, hk,
    MambaManager.addLocalComputedBlocks, Base.addLocalComputedBlocks, ensures_bind, ensures_onlyIf,
    ensures_get, ensures_check]
  exact ⟨fun _ => ⟨fun h => absurd h hne, fun _ => ⟨by simp [Harmless], trivial⟩⟩,
    fun h => absurd trivial h⟩
end

/-! ### When the prediction suffices -/

/-- The blocks of a hit do not reach past the local prefix. They may end before
it: a connector that takes divergent hits of the groups supplies the state. -/
def HitShape (k : ManagerConfig) (c : SlotCall n m) (hits : List (Fin n)) : Prop :=
  hits.length ≤
    if c.numNewComputedTokens = 0 then 0 else cdiv c.numLocalComputedTokens k.blockSize

def firstAllocation (c : SlotCall n m) (s : CacheState n m) : Bool :=
  (c.newComputedBlocks.isSome ∨ 0 < c.numExternalComputedTokens) ∧
    ∀ i, (s.managers i).numCachedBlock c.request.requestId = none

/-- When the prediction covers the allocation. The table must not be longer than
what is required, unless a copy is pending; and an external state must be the
running state, or be paid for by a hit. -/
structure Covered (k : ManagerConfig) (spec : MambaSpec) (cfg : Config m) (g : Group n)
    (c : SlotCall n m) (hits : List (Fin n)) : Prop where
  table : (g.manager.partialHitReqs c.request.requestId).isSome ∨
    (g.manager.mamba.alignedStateCowReqs c.request.requestId).isSome ∨
    tableLength g c.request.requestId ≤
      cdiv (alignTokensForLookahead k (c.numTokensNeedSlot cfg) (c.numTokensMainModel cfg)).1
        k.blockSize + spec.numSpeculativeBlocks
  external : c.numExternalComputedTokens = 0 ∨
    cdiv (c.numTokensMainModel cfg) k.blockSize ≤ cdiv c.allComputedTokens k.blockSize ∨
    k.hasPartialLocalHit hits c.numLocalComputedTokens ∨ 0 < getNumEvictableBlocks g.pool hits

theorem not_ensures_false {op : ManagerM n α} :
    ¬ Ensures op g (fun _ _ => False) (fun _ _ => False) := by
  intro h
  obtain ⟨_, _, _, hfalse⟩ := h.exists_ok
  exact hfalse

theorem getNumBlocksToAllocate_inv {k : ManagerConfig} {spec : MambaSpec} {r : RequestId}
    {numTokens numLocal main : ℕ} {hits free : List (Fin n)} {b : ℤ}
    (hk : k.kind = .mamba spec) (hfree : FreeListInv g.pool free) (hb : b ≤ free.length)
    (hrun : (Manager.getNumBlocksToAllocate k r numTokens hits total numLocal main false).run g =
      .ok b u) :
    b = predictedNewBlocks k spec g r numTokens main hits total numLocal +
        getNumEvictableBlocks g.pool hits ∧
      u = planCheckpoint k spec r total main g := by
  have hspec : Ensures (Manager.getNumBlocksToAllocate k r numTokens hits total numLocal main false)
      g (fun b u => b = (n : ℤ) + 1 ∨
        (b = predictedNewBlocks k spec g r numTokens main hits total numLocal +
          getNumEvictableBlocks g.pool hits ∧ u = planCheckpoint k spec r total main g))
      (fun _ _ => False) := by
    simp only [Manager.getNumBlocksToAllocate, hk, MambaManager.getNumBlocksToAllocate,
      ensures_bind, ensures_get, ensures_ite, ensures_onlyIf, modifyMamba, modifyManager,
      ensures_modify, ensures_pure]
    exact ⟨fun _ => .inl trivial,
      fun _ => ⟨fun _ => .inr ⟨trivial, rfl⟩, fun h => absurd trivial h⟩⟩
  -- a deferred hit asks for more blocks than there are
  refine (hspec.of_ok hrun).resolve_left fun h => ?_
  have hlength := hfree.represents.nodup.length_le_card
  rw [Fintype.card_fin] at hlength
  omega

section
variable {k : ManagerConfig} {spec : MambaSpec} {r : RequestId} {hits : List (Fin n)}
  {numLocal numExternal numTokens main : ℕ} {g : Group n} {b : ℤ}

/-- For a first allocation the prediction is enough exactly when it covers the cost. -/
theorem neverShort_fresh_iff (hk : k.kind = .mamba spec)
    (hshape : hits.length ≤ cdiv numLocal k.blockSize) (hg : Consistent g.pool)
    (hfresh : Fresh g.manager r) (hpos : 0 < main) (hmain : numLocal + numExternal ≤ main)
    (hb : b = predictedNewBlocks k spec g r numTokens main hits (numLocal + numExternal) numLocal +
      getNumEvictableBlocks g.pool hits) (hle : b ≤ g.pool.getNumFreeBlocks) :
    NeverShort (groupTakes k r hits numLocal numExternal numTokens main true) b
        (planCheckpoint k spec r (numLocal + numExternal) main g) ↔
      numExternal = 0 ∨ cdiv main k.blockSize ≤ cdiv (numLocal + numExternal) k.blockSize ∨
        k.hasPartialLocalHit hits numLocal ∨ 0 < getNumEvictableBlocks g.pool hits := by
  set u := planCheckpoint k spec r (numLocal + numExternal) main g with hu
  have hfresh' : Fresh u.manager r := ⟨hfresh.blocks, hfresh.idle, hfresh.noHit, hfresh.noCow⟩
  have hconsistent : Consistent u.pool := hg
  have htakes : Ensures (groupTakes k r hits numLocal numExternal numTokens main true) u _ _ :=
    groupTakes_fresh hk hshape hconsistent hfresh' numTokens hpos rfl
  simp only [spare] at htakes
  have hcount : u.pool.getNumFreeBlocks = g.pool.getNumFreeBlocks := rfl
  rw [← freshCost_le_iff spec hfresh hshape numTokens hmain, ← hb, ← hu]
  constructor
  · -- an uncovered cost is exact, so no outcome stays within the prediction
    intro hnever
    by_contra hcost
    have hlack := mt (freshCost_le_iff spec hfresh hshape numTokens hmain).mpr (by rwa [← hb])
    simp only [not_or, Nat.not_le, Nat.not_lt] at hlack
    obtain ⟨hexternal, -, hhit, -⟩ := hlack
    have hshort : 0 < numExternal ∧ hits.length < cdiv (numLocal + numExternal) k.blockSize := by
      refine ⟨Nat.pos_of_ne_zero hexternal, ?_⟩
      refine (length_le_cdiv_total hshape numExternal).lt_of_ne fun hlength => hhit ?_
      exact partialHit_of_length_eq hshape (Nat.pos_of_ne_zero hexternal) hlength
    refine not_ensures_false ((hnever.and htakes).mono ?_ ?_)
    · rintro _ t ⟨hk, -, hexact⟩
      have := hexact hshort
      omega
    · rintro e t ⟨⟨-, he⟩, ⟨-, -, hnot⟩ | ⟨-, message, rfl⟩⟩
      · exact hnot hshort
      · exact he.1 message rfl
  · intro hcost
    refine htakes.mono ?_ ?_
    · rintro _ t ⟨hle', -⟩
      omega
    · rintro e t (⟨he, hle', -⟩ | ⟨hlt, -⟩)
      · exact ⟨by omega, he⟩
      · omega

/-- For a running request it is enough exactly when it covers what is drawn. -/
theorem neverShort_running_iff (hk : k.kind = .mamba spec) (hg : Consistent g.pool)
    (hidle : g.manager.mamba.allocatedBlockReqs r → spec.numSpeculativeBlocks ≤ tableLength g r)
    (hpos : 0 < main) (first : Bool)
    (hfirst : first = true → g.manager.reqToBlocks r ≠ [])
    (hb : b = predictedNewBlocks k spec g r numTokens main [] total numLocal)
    (hle : b ≤ g.pool.getNumFreeBlocks) :
    NeverShort (groupTakes k r hits numLocal numExternal numTokens main first) b
        (planCheckpoint k spec r total main g) ↔
      (g.manager.partialHitReqs r).isSome ∨ (g.manager.mamba.alignedStateCowReqs r).isSome ∨
        tableLength g r ≤ (allocationPlan k spec g.manager r numTokens main).numRequiredBlocks := by
  set u := planCheckpoint k spec r total main g with hu
  have hcount : u.pool.getNumFreeBlocks = g.pool.getNumFreeBlocks := rfl
  have hcovered : (0 : ℤ) ≤ b ↔ _ := hb ▸ draws_le_predicted_iff (d := 0) numTokens total hpos hidle
    (.inl rfl)
  cases first with
  | true =>
    have hblocked : Ensures (groupTakes k r hits numLocal numExternal numTokens main true) u _ _ :=
      groupTakes_blocked hk numTokens main (hfirst rfl)
    rw [← hcovered]
    constructor
    · intro hnever
      by_contra hneg
      refine not_ensures_false ((hnever.and hblocked).mono (fun _ _ h => h.2.elim) ?_)
      rintro e t ⟨⟨hk, -⟩, -, rfl⟩
      omega
    · intro hnonneg
      refine hblocked.mono (fun _ _ h => h.elim) ?_
      rintro e t ⟨he, rfl⟩
      exact ⟨by omega, he⟩
  | false =>
    have hconsistent : Consistent u.pool := hg
    have hidle' : u.manager.mamba.allocatedBlockReqs r →
      spec.numSpeculativeBlocks ≤ tableLength u r := hidle
    have htakes : Draws (groupTakes k r hits numLocal numExternal numTokens main false) _ _ u :=
      groupTakes_running hk numTokens hpos hconsistent hidle' rfl
    simp only [Draws, spare] at htakes
    constructor
    · -- a prediction below 0 is short even of nothing
      intro hnever
      by_contra hcond
      have hneg := mt hcovered.mp hcond
      refine not_ensures_false ((hnever.and htakes).mono ?_ ?_)
      · rintro _ t ⟨hk, ht⟩
        omega
      · rintro e t ⟨⟨hk, he⟩, ⟨-, hle', -⟩ | ⟨-, message, rfl⟩⟩
        · omega
        · exact he.1 message rfl
    · intro hcond
      have hcost : (draws spec (allocationPlan k spec u.manager r numTokens main)
          (tableLength u r) : ℤ) ≤ b :=
        hb ▸ (draws_le_predicted_iff numTokens total hpos hidle (.inr rfl)).mpr hcond
      refine htakes.mono ?_ ?_
      · intro _ t ht
        omega
      · rintro e t (⟨he, -, hle'⟩ | ⟨hlt, -⟩)
        · exact ⟨by omega, he⟩
        · omega
end

/-- In every reachable state and for every call that the scheduler makes, the
blocks that a Mamba group takes are covered by its prediction exactly when
`Covered` holds; the bound on new blocks is never exceeded. -/
theorem mamba_prediction_suffices_iff {cfg : Config m} {t : CacheState n m} {slots : Ledger}
    {c : SlotCall n m} {i : Fin m} {spec : MambaSpec} {free : List (Fin n)} {b : ℤ} {g : Group n}
    (hs : Reachable cfg t slots) (hc : Promised cfg t slots c)
    (hk : (cfg.groups i).kind = .mamba spec)
    (hshape : HitShape (cfg.groups i) c (c.newComputedBlockList i))
    (hnew : c.numNewTokens ≠ 0 ∨ c.numExternalComputedTokens ≠ 0)
    (hfree : FreeListInv t.pool free)
    (hpredict : (Manager.getNumBlocksToAllocate (cfg.groups i) c.request.requestId
      (c.numTokensNeedSlot cfg) (c.newComputedBlockList i) c.allComputedTokens
      c.numLocalComputedTokens (c.numTokensMainModel cfg) false).run (t.group i) = .ok b g)
    (hle : b ≤ free.length) :
    NeverShort (groupTakes (cfg.groups i) c.request.requestId (c.newComputedBlockList i)
        c.numLocalComputedTokens c.numExternalComputedTokens (c.numTokensNeedSlot cfg)
        (c.numTokensMainModel cfg) (firstAllocation c t)) b g ↔
      Covered (cfg.groups i) spec cfg (t.group i) c (c.newComputedBlockList i) := by
  set r := c.request.requestId with hr
  have hpos := hc.main_pos hnew
  have htable := mambaInv_run.reachable hs i spec hk r
  have hmain : c.allComputedTokens ≤ c.numTokensMainModel cfg := by
    rw [SlotCall.numTokensMainModel, SlotCall.totalComputedTokens, min_eq_left hc.total]
    exact Nat.le_add_right _ _
  obtain ⟨hb, rfl⟩ := getNumBlocksToAllocate_inv hk hfree hle hpredict
  rw [← hfree.count] at hle
  have hcovered :
      Covered (cfg.groups i) spec cfg (t.group i) c (c.newComputedBlockList i) ↔ _ ∧ _ :=
    ⟨fun h => ⟨h.table, h.external⟩, fun h => ⟨h.1, h.2⟩⟩
  rw [hcovered]
  by_cases hfirst : firstAllocation c t = true ∧ (t.managers i).reqToBlocks r = []
  · obtain ⟨hfirst, hempty⟩ := hfirst
    have hfresh : Fresh (t.group i).manager r := by
      have hidle : ¬ (entry (t.managers i) r).allocated := fun h => by
        have hlong := htable.allocated h
        simp [entry, hempty] at hlong
      have hclear := mt htable.pending (by simp [entry, hempty])
      simp only [not_or, Option.not_isSome_iff_eq_none] at hclear
      exact ⟨hempty, Bool.eq_false_of_not_eq_true hidle, hclear.1, hclear.2⟩
    have hhits : (c.newComputedBlockList i).length ≤
        cdiv c.numLocalComputedTokens (cfg.groups i).blockSize := by
      unfold HitShape at hshape
      split_ifs at hshape <;> omega
    rw [hfirst, and_iff_right]
    · exact neverShort_fresh_iff hk hhits ⟨free, hfree⟩ hfresh hpos hmain hb hle
    · exact .inr (.inr (by simp [tableLength, CacheState.group, ← hr, hempty]))
  · -- a request with a table, or one that is tracked, comes without hits
    have hnone : c.numNewComputedTokens = 0 ∧ c.numExternalComputedTokens = 0 := by
      by_contra hsome
      rw [not_and_or] at hsome
      have htables := hc.firstTime hsome
      refine hfirst ⟨?_, (htables i).1⟩
      simp only [firstAllocation, decide_eq_true_eq]
      refine ⟨?_, fun j => (htables j).2⟩
      rcases hsome with hlocal | hexternal
      · refine .inl (Option.isSome_iff_ne_none.mpr fun h => hlocal (hc.noHits h))
      · exact .inr (Nat.pos_of_ne_zero hexternal)
    have hhits : c.newComputedBlockList i = [] := by
      rw [HitShape, if_pos hnone.1] at hshape
      exact length_eq_zero_iff.mp (Nat.le_zero.mp hshape)
    rw [and_iff_left (.inl hnone.2), hhits]
    rw [hhits] at hb
    refine neverShort_running_iff hk ⟨free, hfree⟩ (fun h => ?_) hpos _ (fun h hempty => ?_) ?_ hle
    · exact (Nat.le_succ _).trans (htable.allocated h)
    · exact hfirst ⟨h, hempty⟩
    · simpa [getNumEvictableBlocks] using hb

def stateGroup : Config 1 := .single (.mamba ⟨0, 0, none⟩) (Nat.succPNat 3) true 16

/-- A waiting request with a prompt of eight tokens, the first `external` of
them loaded by a connector. -/
def loadedPrompt (external : ℕ) : SlotCall 4 1 where
  request :=
    { numPromptTokens := 8, promptTokenIds := some [1, 2, 3, 4, 5, 6, 7, 8], outputTokenIds := [],
      allTokenIds := [1, 2, 3, 4, 5, 6, 7, 8], promptEmbeds := none, mmFeatures := [],
      loraRequest := none, cacheSalt := none, blockHashes := [[1], [2]], requestId := 0,
      status := .waiting, numComputedTokens := 0, numInFlightTokens := 0,
      sharedPrefixBoundary := 0 }
  numNewTokens := 4
  numNewComputedTokens := 0
  newComputedBlocks := none
  numLookaheadTokens := 0
  numExternalComputedTokens := external
  delayCacheBlocks := false
  fullSequenceMustFit := false
  reservedBlocks := 0
  hasScheduledReqs := false

theorem loadedPrompt_promised (p : BlockPool 4) {external : ℕ} (h : external ≤ 8) :
    Promised stateGroup ⟨p, fun _ => initManager⟩ (fun _ => 0) (loadedPrompt external) where
  computed := le_rfl
  total := by
    simp only [SlotCall.allComputedTokens, SlotCall.numLocalComputedTokens, loadedPrompt]
    change 0 + 0 + external ≤ 16
    omega
  noHits _ := rfl
  firstTime _ _ := ⟨rfl, rfl⟩

theorem mamba_prediction_suffices_prompt :
    ∃ (p : BlockPool 4) (g : Group 4), initPool 4 true 4 false = .ok p ∧
      NeverShort (groupTakes (stateGroup.groups 0) 0 [] 0 0 4 4 false) 1 g := by
  obtain ⟨p, hinit, hnew⟩ := initPool_spec (n := 4) true 4 false
  cases hinit
  have hpredict := mamba_prediction_suffices_iff (b := 1) (i := 0) (.init _)
    (loadedPrompt_promised _ (Nat.zero_le 8)) rfl (Nat.le_refl 0) (.inl (by decide)) hnew.free rfl
    (by decide)
  exact ⟨_, _, rfl, hpredict.mpr ⟨.inr (.inr (Nat.zero_le _)), .inl rfl⟩⟩

def freeAfter (op : ManagerM n PUnit) (g : Group n) : Option ℕ :=
  match op.run g with
  | .ok _ t => some t.pool.getNumFreeBlocks
  | .error _ _ => none

/-- Four loaded tokens and four new ones take two blocks, one is predicted. -/
theorem mamba_prediction_short_external :
    ∃ (p : BlockPool 4) (g : Group 4), initPool 4 true 4 false = .ok p ∧
      Promised stateGroup ⟨p, fun _ => initManager⟩ (fun _ => 0) (loadedPrompt 4) ∧
      (Manager.getNumBlocksToAllocate (stateGroup.groups 0) 0 8 [] 4 0 8 false).run
        ⟨p, initManager⟩ = .ok 1 g ∧
      g.pool.getNumFreeBlocks = 3 ∧
      freeAfter (groupTakes (stateGroup.groups 0) 0 [] 0 4 8 8 true) g = some 1 := by
  obtain ⟨p, hinit, -⟩ := initPool_spec (n := 4) true 4 false
  cases hinit
  exact ⟨_, _, rfl, loadedPrompt_promised _ (by decide), rfl, rfl, by decide +kernel⟩

end Vllm.MambaPrediction
