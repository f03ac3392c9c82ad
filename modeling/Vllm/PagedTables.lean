import Vllm.KVCacheRuns
import Vllm.ManagerFrames

/-!
The block tables of the attention managers that page their tokens. In every
run a request's table covers the tokens for which slots were allocated, and no
copy-on-write is left pending between two calls.
-/
namespace Vllm.PagedTables

open Outcome FreeBlockQueue Pool CacheManagers KVCacheManager KVCacheRuns ManagerFrames

variable {n : ℕ}

def isPaged : ManagerKind → Bool
  | .fullAttention => true
  | .slidingWindow _ _ => true
  | .chunkedLocal _ => true
  | _ => false

variable (k : ManagerConfig)

/-- A table with slots for the given number of tokens and nothing pending. -/
def Slotted (e : Entry n) (tokens : ℕ) : Prop :=
  e.partialHit = none ∧ tokens ≤ e.blocks.length * k.blockSize

def PagedInv (slots : Ledger) (g : Manager n) : Prop :=
  isPaged k.kind → ∀ q, Slotted k (entry g q) (slots q)

/-- Inside an allocation for request `r` the other requests are slotted. -/
def PagedMid (slots : Ledger) (r : RequestId) (g : Manager n) : Prop :=
  isPaged k.kind → ∀ q, q ≠ r → Slotted k (entry g q) (slots q)

/-! ### Paged managers use the methods of the base class -/

section
variable {k : ManagerConfig} (hk : isPaged k.kind)
include hk

variable (r : RequestId)

theorem removeSkippedBlocks_eq (processed : ℕ) :
    (Manager.removeSkippedBlocks k r processed : ManagerM n _) =
      Base.removeSkippedBlocks k r processed := by
  unfold Manager.removeSkippedBlocks
  cases h : k.kind <;> simp_all [isPaged]

theorem getNumBlocksToAllocate_eq (numTokens : ℕ) (hits : List (Fin n)) (total numLocal main : ℕ)
    (cap : Bool) :
    Manager.getNumBlocksToAllocate k r numTokens hits total numLocal main cap =
      Base.getNumBlocksToAllocate k r numTokens hits total numLocal cap := by
  unfold Manager.getNumBlocksToAllocate
  cases h : k.kind <;> simp_all [isPaged]

theorem addLocalComputedBlocks_eq (hits : List (Fin n)) (numLocal numExternal : ℕ) :
    Manager.addLocalComputedBlocks k r hits numLocal numExternal =
      Base.addLocalComputedBlocks k r hits numLocal numExternal := by
  unfold Manager.addLocalComputedBlocks
  cases h : k.kind <;> simp_all [isPaged]

theorem allocateExternalComputedBlocks_eq (numLocal numExternal : ℕ) :
    (Manager.allocateExternalComputedBlocks k r numLocal numExternal : ManagerM n _) =
      Base.allocateExternalComputedBlocks k r numLocal numExternal := by
  unfold Manager.allocateExternalComputedBlocks
  cases h : k.kind <;> simp_all [isPaged]

theorem allocateNewBlocks_eq (numTokens main : ℕ) :
    (Manager.allocateNewBlocks k r numTokens main : ManagerM n _) =
      Base.allocateNewBlocks k r numTokens := by
  unfold Manager.allocateNewBlocks
  cases h : k.kind <;> simp_all [isPaged]

theorem popBlocksForFree_eq :
    (Manager.popBlocksForFree k r : ManagerM n _) = Base.popBlocksForFree r := by
  unfold Manager.popBlocksForFree
  cases h : k.kind <;> simp_all [isPaged]
end

/-! ### What the operations of the base class do to a table -/

theorem popLoop_length (k : ℕ) (curr : Option (Node n)) (q : FreeKVCacheBlockQueue n) :
    Ensures (popLoop k curr) q (fun r _ => r.1.length = k) (fun _ _ => True) := by
  induction k generalizing curr q with
  | zero => exact rfl
  | succ k ih =>
    match curr with
    | some (.block b) =>
      simp only [popLoop, ensures_bind, ensures_get, ensures_set]
      refine (ih _ _).weaken (fun r _ hr => ?_)
      exact congrArg (· + 1) hr
    | none => trivial
    | some .fakeHead => trivial
    | some .fakeTail => trivial

theorem popleftN_length (k : ℕ) (q : FreeKVCacheBlockQueue n) :
    Ensures (popleftN k) q (fun r _ => r.length = k) (fun _ _ => True) := by
  rw [popleftN, ensures_ite]
  refine ⟨fun hk => hk.symm, fun _ => ?_⟩
  simp only [ensures_bind, ensures_get, ensures_check, ensures_set]
  refine ⟨fun _ => ?_, fun _ => trivial⟩
  refine (popLoop_length k _ _).weaken (fun r _ hr => ?_)
  split <;> exact hr

/-- The pool hands out as many blocks as it is asked for. -/
theorem getNewBlocks_length (k : ℕ) (s : BlockPool n) :
    Ensures (getNewBlocks k) s (fun r _ => r.length = k) (fun _ _ => True) := by
  simp only [getNewBlocks, ensures_bind, ensures_get, ensures_check]
  refine ⟨fun _ => ?_, fun _ => trivial⟩
  rw [onQueue, ensures_zoom]
  refine (popleftN_length k _).weaken (fun r _ hr => ?_)
  exact Ensures.of_forall (fun _ _ => hr) fun _ _ => trivial

theorem getNumSkippedTokens_le (k : ManagerConfig) (tokens : ℕ) :
    k.getNumSkippedTokens tokens ≤ tokens := by
  unfold ManagerConfig.getNumSkippedTokens
  split
  · exact Nat.zero_le _
  · next window extra _ =>
    have := window.pos
    omega
  · next window extra _ =>
    have := window.pos
    omega
  · exact Nat.zero_le _
  · exact Nat.div_mul_le_self _ _
  · exact Nat.sub_le _ _

/-- The table of a first allocation: null blocks for the skipped ones, then the hits. -/
theorem attachComputed_blocks (k : ManagerConfig) (p : Manager n) (null : Fin n) (r : RequestId)
    (skipped : ℕ) (hits : List (Fin n)) (numLocal : ℕ) :
    (Base.attachComputed k p null r skipped hits numLocal).reqToBlocks r =
      List.replicate skipped null ++ hits := by
  unfold Base.attachComputed
  split
  · simp [Manager.setNumCachedBlock, Manager.setBlocks]
  · split_ifs <;> simp [Manager.setNumCachedBlock, Manager.setBlocks, Manager.setPartialHit]

variable {k : ManagerConfig} {slots : Ledger}

theorem predict_same (hk : isPaged k.kind) {r : RequestId} (numTokens : ℕ) (hits : List (Fin n))
    (total numLocal main : ℕ) (cap : Bool) (g : Group n) :
    Ensures (Manager.getNumBlocksToAllocate k r numTokens hits total numLocal main cap) g
      (fun _ t => t = g) (fun _ _ => True) := by
  rw [getNumBlocksToAllocate_eq hk, Base.getNumBlocksToAllocate, ensures_bind, ensures_get,
    ensures_ite, ensures_bind, ensures_check]
  exact ⟨fun _ => ⟨fun _ => rfl, fun _ => trivial⟩, fun _ => rfl⟩

/-- Only the lengths of the tables and the pending hits count. -/
theorem PagedInv.congr {g t : Manager n} (hg : PagedInv k slots g)
    (hlength : ∀ q, (t.reqToBlocks q).length = (g.reqToBlocks q).length)
    (hhit : t.partialHitReqs = g.partialHitReqs) : PagedInv k slots t := by
  intro hk q
  obtain ⟨hnone, hlen⟩ := hg hk q
  refine ⟨(congrFun hhit q).trans hnone, ?_⟩
  simpa only [entry, hlength q] using hlen

/-- Operations for one request leave the others slotted. -/
theorem OnlyTouches.pagedMid {r : RequestId} {g t : Group n} (h : OnlyTouches r g t)
    (hg : PagedMid k slots r g.manager) : PagedMid k slots r t.manager := by
  intro hk q hq
  rw [h q hq]
  exact hg hk q hq

theorem ensures_of_paged {α : Type} {op : ManagerM n α} {g : Group n} {P : Group n → Prop}
    (h : isPaged k.kind → Ensures op g (fun _ t => isPaged k.kind → P t) (fun _ _ => True)) :
    Ensures op g (fun _ t => isPaged k.kind → P t) (fun _ _ => True) := by
  by_cases hk : isPaged k.kind
  · exact h hk
  · exact .of_forall (fun _ _ h => absurd h hk) fun _ _ => trivial

theorem cacheBlocks_registers (hk : isPaged k.kind) (req : CacheRequest) (numTokens : ℕ)
    (retention : Option ℕ) (replay : ℕ) :
    Within (Frame (n := n) Anyhow req.requestId Registers)
      (Manager.cacheBlocks k req numTokens retention replay) := by
  unfold Manager.cacheBlocks
  cases h : k.kind with
  | fullAttention => exact fullAttention_cacheBlocks_frame anyPool k req _ _ _
  | slidingWindow window extra => exact cacheBlocks_frame anyPool k req _ _ _
  | chunkedLocal chunk => exact cacheBlocks_frame anyPool k req _ _ _
  | dflashRing window extra => simp [h, isPaged] at hk
  | circularBuffer => simp [h, isPaged] at hk
  | mamba spec => simp [h, isPaged] at hk

theorem redirectPartialHit_none (r : RequestId) (g : Group n) :
    Ensures (Base.redirectPartialHit r) g
      (fun _ t => (entry t.manager r).partialHit = none) (fun _ _ => True) := by
  rw [Base.redirectPartialHit, ensures_bind, ensures_get]
  split
  · next h => exact h
  · simp only [ensures_bind, modifyManager, ensures_modify, onPool, ensures_zoom]
    refine Ensures.of_forall (fun _ _ => ?_) (fun _ _ => trivial)
    rw [ensures_expect]
    refine ⟨fun _ _ => ?_, fun _ => trivial⟩
    simp only [Base.applyCow, ensures_bind, ensures_get, ensures_check, modifyManager,
      ensures_modify, onPool, ensures_zoom, ensures_pure]
    exact ⟨fun _ => ⟨fun _ => ⟨fun _ => by simp [entry, Manager.setBlocks, Manager.setPartialHit],
      fun _ => trivial⟩, fun _ => trivial⟩, fun _ => trivial⟩

/-- After an allocation the table holds slots for all its tokens. -/
theorem allocateNewBlocks_slotted (k : ManagerConfig) (r : RequestId) (numTokens : ℕ)
    (g : Group n) :
    Ensures (Base.allocateNewBlocks k r numTokens) g
      (fun _ t => Slotted k (entry t.manager r) numTokens) (fun _ _ => True) := by
  rw [Base.allocateNewBlocks, ensures_bind]
  refine (redirectPartialHit_none r g).weaken (fun _ t ht => ?_)
  rw [ensures_bind, ensures_get, ensures_ite]
  have hcover := le_cdiv_mul numTokens k.blockSize_pos
  refine ⟨fun hle => ⟨ht, hcover.trans (Nat.mul_le_mul_right _ hle)⟩, fun hlt => ?_⟩
  simp only [Base.extendBlocks, ensures_bind, onPool, ensures_zoom, modifyManager, ensures_modify,
    ensures_pure]
  refine (getNewBlocks_length _ _).weaken (fun bs p hbs => ?_)
  refine ⟨ht, hcover.trans (Nat.mul_le_mul_right _ ?_)⟩
  simp [entry, Manager.setBlocks, Manager.recordBlocks, hbs]
  omega

theorem popBlocksForFree_slotted (k : ManagerConfig) (r : RequestId) (g : Group n) :
    Ensures (Base.popBlocksForFree r) g
      (fun _ t => Slotted k (entry t.manager r) 0) (fun _ _ => True) := by
  simp [Base.popBlocksForFree, modifyManager, Slotted, entry, Manager.setPartialHit,
    Manager.setNumCachedBlock, Manager.setBlocks]

/-- When the request is slotted again, all are. -/
theorem pagedInv_update {r : RequestId} {tokens : ℕ} {g t : Group n} (hframe : OnlyTouches r g t)
    (hr : Slotted k (entry t.manager r) tokens) (hg : PagedMid k slots r g.manager) :
    PagedInv k (Function.update slots r tokens) t.manager := by
  intro hk q
  by_cases hq : q = r
  · subst hq
    simpa using hr
  · rw [hframe q hq, Function.update_of_ne hq]
    exact hg hk q hq

theorem pagedInv_run : RunInvariant n PagedInv PagedMid where
  init k _ q := ⟨rfl, by simp⟩
  skip k slots r processed g hg := by
    refine (manager_removeSkippedBlocks_frame anyPool.freeBlocks k r processed g).weaken ?_
    exact fun _ _ h => hg.congr h.same.length h.same.partialHitReqs
  predict k slots r numTokens hits total numLocal main cap g hg := by
    refine (manager_getNumBlocksToAllocate_frame (S := Anyhow) k r numTokens hits total numLocal
      main cap g).weaken (fun _ _ h => ?_)
    obtain ⟨_, hplan⟩ := h.same
    exact hg.congr (fun _ => by rw [hplan]) (by rw [hplan])
  enter k slots r g hg hk q _ := hg hk q
  addLocal k slots r hits numLocal numExternal g hg :=
    (manager_addLocalComputedBlocks_frame k r anyPool hits numLocal numExternal g).weaken
      (fun _ _ h => OnlyTouches.pagedMid h.other hg)
  allocateExternal k slots r numLocal numExternal g hg :=
    (manager_allocateExternalComputedBlocks_frame k r anyPool numLocal numExternal g).weaken
      (fun _ _ h => OnlyTouches.pagedMid h.other hg)
  allocateNew k slots r numTokens main g _ hg := ensures_of_paged fun hk => by
    rw [allocateNewBlocks_eq hk]
    have hboth := (allocateNewBlocks_frame anyPool k r numTokens g).and
      (allocateNewBlocks_slotted k r numTokens g)
    exact hboth.weaken (fun _ _ h => pagedInv_update h.1.other h.2 hg)
  cache k slots r numTokens retention replay g hg := ensures_of_paged fun hk => by
    refine (cacheBlocks_registers hk r numTokens retention replay g).weaken (fun _ _ h => ?_)
    obtain ⟨_, hcounts⟩ := h.same
    exact hg.congr (fun _ => by rw [hcounts]) (by rw [hcounts])
  free k slots r g hg := ensures_of_paged fun hk => by
    rw [Manager.free, popBlocksForFree_eq hk, ensures_bind]
    have hboth := (popBlocksForFree_frame (S := Anyhow) r g).and (popBlocksForFree_slotted k r g)
    refine hboth.weaken (fun _ t h => ?_)
    have ht := pagedInv_update h.1.other h.2 fun hk q _ => hg hk q
    refine (onPool_same _ t).weaken (fun _ _ hsame hk q => ?_)
    rw [hsame q]
    exact ht hk q
  stepStarts k slots g hg := by
    refine (manager_newStepStarts_same k g).weaken (fun _ t h hk q => ?_)
    rw [h.2 q]
    exact hg hk q

end Vllm.PagedTables
