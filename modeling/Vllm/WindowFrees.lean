import Vllm.SlotRuns

/-!
What sliding-window groups give back while steps are in flight. Blocks below the
window are removed on the count of processed tokens: the computed tokens without
those of the steps in flight. Every query of an unprocessed step and of the next
one lies at or above that count, wherever the rejections to come will move it,
so the blocks of its window stay.
-/
namespace Vllm.WindowFrees

open Outcome Pool CacheManagers KVCacheManager KVCacheRuns List Function
open PoolFreeList NullBlock ManagerFrames ManagerPools PagedTables RecycledTables

variable {n m : ℕ} {blocks : List (Fin n)}

/-! ### Steps in flight -/

/-- The tokens of one request in a dispatched step, and the position of the
first as far as the settled steps tell. -/
structure Step where
  start : ℤ
  numTokens : ℕ

def Step.moveBack (rejected : ℕ) (step : Step) : Step :=
  { step with start := step.start - rejected }

def tokens (steps : List Step) : ℕ := (steps.map Step.numTokens).sum

/-- Position `q` may be queried by one of the steps: rejections in the steps
before it move a step back. -/
def Queried (steps : List Step) (q : ℕ) : Prop :=
  ∃ (earlier : List Step) (step : Step) (later : List Step), steps = earlier ++ step :: later ∧
    ∃ rejected : ℕ, rejected ≤ tokens earlier ∧ step.start - rejected ≤ q ∧
      q < step.start - rejected + step.numTokens

/-- The steps start behind one another, the first at `base` or later. -/
def After : ℤ → List Step → Prop
  | _, [] => True
  | base, step :: steps => base ≤ step.start ∧ After (base + step.numTokens) steps

theorem tokens_moveBack (rejected : ℕ) (steps : List Step) :
    tokens (steps.map (Step.moveBack rejected)) = tokens steps := by
  simp [tokens, Step.moveBack, comp_def]

variable {steps : List Step}

theorem After.mono {a b : ℤ} (h : After b steps) (hab : a ≤ b) : After a steps := by
  induction steps generalizing a b with
  | nil => trivial
  | cons step steps ih => exact ⟨hab.trans h.1, ih h.2 (by omega)⟩

theorem After.append {base : ℤ} {step : Step} (h : After base steps)
    (hstep : base + tokens steps ≤ step.start) : After base (steps ++ [step]) := by
  induction steps generalizing base with
  | nil => exact ⟨by simpa [tokens] using hstep, trivial⟩
  | cons first steps ih =>
    refine ⟨h.1, ih h.2 ?_⟩
    simp only [tokens, map_cons, sum_cons] at hstep
    unfold tokens
    omega

/-- Rejected tokens move all later steps back. -/
theorem After.moveBack {base : ℤ} (h : After base steps) (rejected : ℕ) :
    After (base - rejected) (steps.map (Step.moveBack rejected)) := by
  induction steps generalizing base with
  | nil => trivial
  | cons step steps ih =>
    refine ⟨by simpa [Step.moveBack] using h.1, ?_⟩
    have htail := ih h.2
    rwa [show base + step.numTokens - rejected = base - rejected + step.numTokens by omega] at htail

/-- No step in flight queries below the processed tokens. -/
theorem After.le_of_queried {base : ℤ} (h : After base steps) {q : ℕ} (hq : Queried steps q) :
    base ≤ q := by
  obtain ⟨earlier, step, later, rfl, rejected, hrejected, hfrom, -⟩ := hq
  -- the steps before take as many positions as their rejections can give back
  suffices hstart : base + tokens earlier ≤ step.start by omega
  clear hrejected hfrom
  induction earlier generalizing base with
  | nil => simpa [tokens] using h.1
  | cons first earlier ih =>
    have htail := ih h.2
    simp only [tokens, map_cons, sum_cons] at htail ⊢
    omega

/-! ### Runs -/

/-- Where a request stands. `stale` are the steps in flight from before its last
preemption; the other fields are about the admission since then: the computed
tokens it began with, its tables right after the allocation, whether a step of
it has been processed, and whether computed tokens were taken back because a
load failed or covered the whole prompt. -/
structure Progress (n m : ℕ) where
  numComputedTokens : ℤ
  stale : List Step
  unprocessed : List Step
  first : ℤ
  admitted : Fin m → List (Fin n)
  processed : Bool
  truncated : Bool

namespace Progress

def new : Progress n m := ⟨0, [], [], 0, fun _ => [], false, false⟩

variable (p : Progress n m)

def numInFlightTokens : ℕ := tokens p.stale + tokens p.unprocessed

def base : ℤ := p.numComputedTokens - tokens p.unprocessed

/-- A step of this admission, or the next one to be scheduled, may query `q`. -/
def Queries (q : ℕ) : Prop :=
  Queried p.unprocessed q ∨
    ∃ rejected : ℕ, rejected ≤ tokens p.unprocessed ∧ p.numComputedTokens - rejected ≤ q

def allocated (s t : CacheState n m) (c : SlotCall n m) : Progress n m :=
  -- A request that holds nothing is admitted by the call. Steps in flight at that time are from
  -- before.
  if ∀ i, (s.managers i).reqToBlocks c.request.requestId = [] then
    { numComputedTokens := c.allComputedTokens
      stale := p.stale ++ p.unprocessed
      unprocessed := []
      first := c.allComputedTokens
      admitted := fun i => (t.managers i).reqToBlocks c.request.requestId
      processed := false
      truncated := false }
  else
    { p with numComputedTokens := c.allComputedTokens }

def dispatched (numTokens : ℕ) : Progress n m :=
  { p with
    numComputedTokens := p.numComputedTokens + numTokens
    unprocessed := p.unprocessed ++ [⟨p.numComputedTokens, numTokens⟩] }

def settled (rejected : ℕ) (later : List Step) : Progress n m :=
  -- The oldest step is processed and some of its draft tokens are rejected.
  { p with
    numComputedTokens := p.numComputedTokens - rejected
    unprocessed := later.map (Step.moveBack rejected)
    processed := true }

def freed : Progress n m :=
  -- Preemption and the end of the request: what is in flight becomes stale.
  { new with stale := p.stale ++ p.unprocessed }

end Progress

/-- What the scheduler promises when it calls `allocate_slots`: hits, as the
prefix-cache lookup returns them, and loaded tokens come with a request that
holds nothing, and such a request has no computed tokens. -/
structure Scheduled (s : CacheState n m) (p : Progress n m) (c : SlotCall n m) : Prop where
  computed : (c.request.numComputedTokens : ℤ) = p.numComputedTokens
  inFlight : c.request.numInFlightTokens = p.numInFlightTokens
  noHits : c.newComputedBlocks = none → c.numNewComputedTokens = 0
  firstTime : c.newComputedBlocks.isSome ∨ 0 < c.numExternalComputedTokens →
    ∀ i, (s.managers i).reqToBlocks c.request.requestId = [] ∧
      (s.managers i).numCachedBlock c.request.requestId = none
  nothing : (∀ i, (s.managers i).reqToBlocks c.request.requestId = []) →
    c.request.numComputedTokens = 0
  -- what the lookups find, see `LookupHits.Returned.nullsFirst`
  hits : ∀ i, NullsFirst s.pool.nullBlock (c.newComputedBlockList i)

/-- Runs of requests through the cache manager and the steps in flight. Outputs
come back in the order of their steps; a load that failed is known when the
first step of the admission is processed, not later. -/
inductive Run (cfg : Config m) : CacheState n m → (RequestId → Progress n m) → Prop
  | init {pool : BlockPool n} (hpool : NullApart pool) :
      Run cfg ⟨pool, fun _ => initManager⟩ fun _ => .new
  | otherPool {s progress} {pool : BlockPool n} (hs : Run cfg s progress)
      (hpool : NullKept s.pool pool) : Run cfg { s with pool } progress
  | allocated {s progress c t} (hs : Run cfg s progress)
      (hc : Scheduled s (progress c.request.requestId) c)
      (hrun : (allocateSlots cfg c).run s = .ok true t) :
      Run cfg t (Function.update progress c.request.requestId
        ((progress c.request.requestId).allocated s t c))
  | refused {s progress c t} (hs : Run cfg s progress)
      (hc : Scheduled s (progress c.request.requestId) c)
      (hrun : (allocateSlots cfg c).run s = .ok false t) : Run cfg t progress
  | dispatched {s progress} (r : RequestId) (numTokens : ℕ) (hs : Run cfg s progress) :
      Run cfg s (Function.update progress r ((progress r).dispatched numTokens))
  | settled {s progress step later} (r : RequestId) (rejected : ℕ) (hs : Run cfg s progress)
      (hstale : (progress r).stale = []) (hstep : (progress r).unprocessed = step :: later)
      (hrejected : rejected ≤ step.numTokens) :
      Run cfg s (Function.update progress r ((progress r).settled rejected later))
  | staleSettled {s progress step later} (r : RequestId) (rejected : ℕ) (hs : Run cfg s progress)
      (hstep : (progress r).stale = step :: later) (hrejected : rejected ≤ step.numTokens) :
      Run cfg s (Function.update progress r
        { progress r with stale := later.map (Step.moveBack rejected) })
  | truncated {s progress} (r : RequestId) {numComputedTokens : ℤ} (hs : Run cfg s progress)
      (hfirst : (progress r).processed = false)
      (hless : numComputedTokens ≤ (progress r).numComputedTokens) :
      Run cfg s (Function.update progress r
        { progress r with numComputedTokens, truncated := true })
  | freed {s progress t} (r : RequestId) (hs : Run cfg s progress)
      (hrun : (Coordinator.free cfg r).run s = .ok ⟨⟩ t) :
      Run cfg t (Function.update progress r (progress r).freed)
  | popped {s progress blocks t} (r : RequestId) (hs : Run cfg s progress)
      (hrun : (Coordinator.popBlocksForFree cfg r).run s = .ok blocks t) :
      Run cfg t (Function.update progress r (progress r).freed)
  | cached {s progress t} (r : CacheRequest) (numComputedTokens : ℕ) (hs : Run cfg s progress)
      (hrun : (Coordinator.cacheBlocks cfg r numComputedTokens).run s = .ok ⟨⟩ t) :
      Run cfg t progress
  | skipped {s progress t} (r : RequestId) (hs : Run cfg s progress)
      (hrun : (Coordinator.removeSkippedBlocks cfg r
        ((progress r).numComputedTokens - (progress r).numInFlightTokens).toNat).run s = .ok ⟨⟩ t) :
      Run cfg t progress
  | stepStarted {s progress t} (hs : Run cfg s progress)
      (hrun : (Coordinator.newStepStarts cfg).run s = .ok ⟨⟩ t) : Run cfg t progress

/-! ### The removed blocks -/

/-- The null blocks of a table are in front, and their number has property `Q`. -/
def NullsIn (null : Fin n) (Q : ℕ → Prop) (blocks : List (Fin n)) : Prop :=
  ∃ j, Q j ∧ Recycled null j blocks

section
variable {cfg : Config m} {c : SlotCall n m} {i : Fin m} {k : ManagerConfig} {null : Fin n}
  {r : RequestId} {g : Group n} {Q : ℕ → Prop}

theorem numSkippedBlocks_zero (k : ManagerConfig) : k.numSkippedBlocks 0 = 0 := by
  have hle := getNumSkippedTokens_le k 0
  rw [ManagerConfig.numSkippedBlocks, Nat.eq_zero_of_le_zero hle, Nat.zero_div]

section
variable (hk : isPaged k.kind)
include hk

theorem allocateNewBlocks_nullsIn (numTokens main : ℕ) (hg : TableHas null r (NullsIn null Q) g) :
    Ensures (Manager.allocateNewBlocks k r numTokens main) g
      (fun _ t => TableHas null r (NullsIn null Q) t) (fun _ _ => True) := by
  obtain ⟨hapart, j, hj, hrecycled⟩ := hg
  rw [allocateNewBlocks_eq hk]
  refine (allocateNewBlocks_table _ ⟨hapart, hrecycled⟩).weaken fun _ t ht => ?_
  exact ⟨ht.1, j, hj, ht.2.2⟩

theorem allocateExternalComputedBlocks_nullsIn (numLocal numExternal : ℕ)
    (hg : TableHas null r (NullsIn null Q) g) :
    Ensures (Manager.allocateExternalComputedBlocks k r numLocal numExternal) g
      (fun _ t => TableHas null r (NullsIn null Q) t) (fun _ _ => True) := by
  obtain ⟨hapart, j, hj, hrecycled⟩ := hg
  rw [allocateExternalComputedBlocks_eq hk]
  refine (allocateExternalComputedBlocks_table ⟨hapart, hrecycled⟩).weaken fun _ t ht => ?_
  exact ⟨ht.1, j, hj, ht.2.2⟩

/-- The removal makes null blocks up to the window of the processed tokens. -/
theorem removeSkippedBlocks_nullsUpTo {processed bound : ℕ}
    (hbound : k.numSkippedBlocks processed ≤ bound)
    (hg : TableHas null r (NullsIn null (· ≤ bound)) g) :
    Ensures (Manager.removeSkippedBlocks k r processed) g
      (fun _ t => TableHas null r (NullsIn null (· ≤ bound)) t) (fun _ _ => True) := by
  obtain ⟨hapart, j, hj, hrecycled⟩ := hg
  rw [removeSkippedBlocks_eq hk]
  refine (removeSkippedBlocks_table _ ⟨hapart, hrecycled⟩).weaken fun _ t ht => ?_
  exact ⟨ht.1, _, max_le hj ((min_le_left _ _).trans hbound), ht.2.2⟩

theorem removeSkippedBlocks_empty (processed : ℕ) (hg : TableHas null r (· = []) g) :
    Ensures (Manager.removeSkippedBlocks k r processed) g
      (fun _ t => TableHas null r (· = []) t) (fun _ _ => True) := by
  obtain ⟨hapart, hempty⟩ := hg
  have hrecycled : Recycled null 0 (g.manager.reqToBlocks r) :=
    ⟨[], by simpa using hempty, not_mem_nil⟩
  rw [removeSkippedBlocks_eq hk]
  refine (removeSkippedBlocks_table _ ⟨hapart, hrecycled⟩).weaken fun _ t ht => ?_
  refine ⟨ht.1, eq_nil_of_length_eq_zero ?_⟩
  rw [ht.2.1, hempty, length_nil]
end

/-- A call without hits removes the blocks below the window of the processed
tokens and no others. -/
theorem running_stages (hrecycles : recycles (cfg.groups i).kind)
    (hnone : ¬ (c.newComputedBlocks.isSome ∨ 0 < c.numExternalComputedTokens)) {bound : ℕ}
    (hbound : (cfg.groups i).numSkippedBlocks
      (c.totalComputedTokens cfg - c.request.numInFlightTokens) ≤ bound) :
    Stages NullKept NullKept cfg c i
      (TableHas null c.request.requestId (NullsIn null (· ≤ bound)))
      (TableHas null c.request.requestId (NullsIn null (· ≤ bound)))
      (TableHas null c.request.requestId (NullsIn null (· ≤ bound)))
      (TableHas null c.request.requestId (NullsIn null (· ≤ bound)))
      (TableHas null c.request.requestId (NullsIn null (· ≤ bound))) := by
  have hk := isPaged_of_recycles hrecycles
  constructor
  case stableBefore => exact ⟨tableHas_stable, tableHas_stable, tableHas_stable⟩
  case stable => exact ⟨tableHas_stable, tableHas_stable, tableHas_stable⟩
  case fullSequence =>
    intro numTokens g t j hrun hg
    obtain rfl := (predict_same hk _ _ _ _ _ _ g).of_ok hrun
    exact hg
  case predict =>
    intro g t j hrun hg
    obtain rfl := (predict_same hk _ _ _ _ _ _ g).of_ok hrun
    exact hg
  case skip => exact fun g hg => removeSkippedBlocks_nullsUpTo hk hbound hg
  case addLocal => exact fun hsome => absurd hsome hnone
  case external => exact fun g hg => allocateExternalComputedBlocks_nullsIn hk _ _ hg
  case running => exact fun _ _ g hg => allocateNewBlocks_nullsIn hk _ _ hg
  case first => exact fun g hg => allocateNewBlocks_nullsIn hk _ _ hg
  case cache =>
    intro numTokens g hg
    rw [cacheBlocks_eq hrecycles]
    exact cacheBlocks_table c.request numTokens _ _ hg

/-- The call for a request without blocks puts null blocks for all tokens below
the window. -/
theorem admission_stages (hrecycles : recycles (cfg.groups i).kind)
    (hhits : NullsFirst null (c.newComputedBlockList i))
    (hnothing : c.request.numComputedTokens = 0) :
    Stages NullKept NullKept cfg c i (TableHas null c.request.requestId (· = []))
      (TableHas null c.request.requestId (· = [])) (TableHas null c.request.requestId (· = []))
      (TableHas null c.request.requestId
        (NullsIn null ((cfg.groups i).numSkippedBlocks c.allComputedTokens ≤ ·)))
      (TableHas null c.request.requestId
        (NullsIn null ((cfg.groups i).numSkippedBlocks c.allComputedTokens ≤ ·))) := by
  have hk := isPaged_of_recycles hrecycles
  constructor
  case stableBefore => exact ⟨tableHas_stable, tableHas_stable, tableHas_stable⟩
  case stable => exact ⟨tableHas_stable, tableHas_stable, tableHas_stable⟩
  case fullSequence =>
    intro numTokens g t j hrun hg
    obtain rfl := (predict_same hk _ _ _ _ _ _ g).of_ok hrun
    exact hg
  case predict =>
    intro g t j hrun hg
    obtain rfl := (predict_same hk _ _ _ _ _ _ g).of_ok hrun
    exact hg
  case skip => exact fun g hg => removeSkippedBlocks_empty hk _ hg
  case addLocal =>
    intro _ g hg
    rw [addLocalComputedBlocks_eq hk]
    refine (addLocalComputedBlocks_table hhits hg.1).weaken fun _ t ht => ?_
    exact ⟨ht.1, ht.2.2⟩
  case external => exact fun g hg => allocateExternalComputedBlocks_nullsIn hk _ _ hg
  case running =>
    intro hlocal hexternal g hg
    -- without hits nothing is computed, and nothing lies below the window
    have hzero : c.allComputedTokens = 0 := by
      unfold SlotCall.allComputedTokens SlotCall.numLocalComputedTokens
      omega
    apply allocateNewBlocks_nullsIn hk
    refine ⟨hg.1, 0, ?_, [], by simpa using hg.2, not_mem_nil⟩
    rw [hzero, numSkippedBlocks_zero]
  case first => exact fun g hg => allocateNewBlocks_nullsIn hk _ _ hg
  case cache =>
    intro numTokens g hg
    rw [cacheBlocks_eq hrecycles]
    exact cacheBlocks_table c.request numTokens _ _ hg
end

/-! ### The invariant -/

/-- How the counts of a request hang together: stale steps come back before any
step of the admission, unprocessed steps start behind the processed tokens, and
these do not fall below the start of the admission unless tokens are taken back. -/
structure Ordered (p : Progress n m) : Prop where
  stale : p.stale ≠ [] → p.processed = false
  after : After p.base p.unprocessed
  first : p.truncated = false → p.first ≤ p.base

/-- The null blocks of a table: those of the admission and those below the
window of the processed tokens. The latter are among the former until a step of
the admission has been processed. -/
def Bounded (k : ManagerConfig) (null : Fin n) (p : Progress n m) (i : Fin m)
    (blocks : List (Fin n)) : Prop :=
  ∃ admitted, Recycled null admitted (p.admitted i) ∧
    NullsIn null (· ≤ max admitted (k.numSkippedBlocks p.base.toNat)) blocks ∧
    (p.processed = false → k.numSkippedBlocks p.base.toNat ≤ admitted)

section
variable {cfg : Config m} {s t : CacheState n m} {progress : RequestId → Progress n m}
  {p : Progress n m} {c : SlotCall n m} {i : Fin m} {null : Fin n}

theorem Ordered.new : Ordered (Progress.new : Progress n m) where
  stale h := absurd rfl h
  after := trivial
  first _ := by simp [Progress.new, Progress.base, tokens]

theorem base_dispatched (p : Progress n m) (numTokens : ℕ) :
    (p.dispatched numTokens).base = p.base := by
  simp [Progress.dispatched, Progress.base, tokens]

variable {k : ManagerConfig} {j idx : ℕ} {step : Step} {numComputedTokens : ℤ} {later : List Step}
  {taken : Bool} {rejected : ℕ}

/-- Settling a step moves the base past its tokens, less those rejected. -/
theorem base_settled (hstep : p.unprocessed = step :: later) (rejected : ℕ) :
    (p.settled rejected later).base = p.base + step.numTokens - rejected := by
  simp only [Progress.settled, Progress.base, tokens_moveBack]
  rw [hstep]
  simp only [tokens, map_cons, sum_cons]
  omega

theorem Ordered.dispatched (h : Ordered p) (numTokens : ℕ) : Ordered (p.dispatched numTokens) where
  stale := h.stale
  after := by
    rw [base_dispatched]
    apply h.after.append
    simp [Progress.base]
  first htrunc := by
    rw [base_dispatched]
    exact h.first htrunc

/-- Steps settle in order, and the rest starts behind the new base. -/
theorem Ordered.settled (h : Ordered p) (hstale : p.stale = [])
    (hstep : p.unprocessed = step :: later) (hrejected : rejected ≤ step.numTokens) :
    Ordered (p.settled rejected later) where
  stale hne := absurd hstale hne
  after := by
    have hafter := h.after
    rw [hstep] at hafter
    rw [base_settled hstep]
    exact hafter.2.moveBack rejected
  first htrunc := by
    have hfirst := h.first htrunc
    rw [base_settled hstep]
    change p.first ≤ _
    omega

theorem Ordered.truncated (h : Ordered p) (hless : numComputedTokens ≤ p.numComputedTokens) :
    Ordered { p with numComputedTokens, truncated := true } where
  stale := h.stale
  after := h.after.mono (by simp only [Progress.base]; omega)
  first htrunc := nomatch htrunc

theorem numComputedTokens_running (hc : Scheduled s p c)
    (hblocks : ¬ ∀ i, (s.managers i).reqToBlocks c.request.requestId = []) :
    p.allocated s t c = p ∧ ¬ (c.newComputedBlocks.isSome ∨ 0 < c.numExternalComputedTokens) := by
  have hnone : ¬ (c.newComputedBlocks.isSome ∨ 0 < c.numExternalComputedTokens) :=
    fun hsome => hblocks fun i => (hc.firstTime hsome i).1
  have hlocal := hc.noHits (Option.not_isSome_iff_eq_none.mp fun h => hnone (.inl h))
  have hcomputed := hc.computed
  have hall : (c.allComputedTokens : ℤ) = p.numComputedTokens := by
    unfold SlotCall.allComputedTokens SlotCall.numLocalComputedTokens
    omega
  refine ⟨?_, hnone⟩
  rw [Progress.allocated, if_neg hblocks, hall]

/-- An admission begins with nothing unprocessed. -/
theorem Ordered.allocated (h : Ordered p) (hc : Scheduled s p c) : Ordered (p.allocated s t c) := by
  by_cases hblocks : ∀ i, (s.managers i).reqToBlocks c.request.requestId = []
  · rw [Progress.allocated, if_pos hblocks]
    constructor
    · exact fun _ => rfl
    · trivial
    · simp [Progress.base, tokens]
  · rw [(numComputedTokens_running hc hblocks).1]
    exact h

theorem Ordered.freed (p : Progress n m) : Ordered p.freed where
  stale _ := rfl
  after := trivial
  first _ := by simp [Progress.freed, Progress.new, Progress.base, tokens]

/-- Along every run the counts of a request hang together. -/
theorem Run.ordered (h : Run cfg s progress) (r : RequestId) : Ordered (progress r) := by
  -- only the progress of the request that the step is about changes
  have hupdate {progress : RequestId → Progress n m} {q : RequestId} {p : Progress n m}
      (hold : Ordered (progress r)) (hnew : q = r → Ordered p) :
      Ordered (Function.update progress q p r) := by
    by_cases hq : r = q
    · subst hq
      simpa using hnew rfl
    · simpa [hq] using hold
  induction h with
  | init _ => exact .new
  | otherPool _ _ ih => exact ih
  | allocated _ hc _ ih => exact hupdate ih fun hr => (hr ▸ ih).allocated hc
  | refused _ _ _ ih => exact ih
  | dispatched _ numTokens _ ih => exact hupdate ih fun hr => (hr ▸ ih).dispatched numTokens
  | settled _ _ _ hstale hstep hrejected ih =>
    exact hupdate ih fun hr => (hr ▸ ih).settled hstale hstep hrejected
  | staleSettled q rejected _ hstep _ ih =>
    apply hupdate ih
    intro hq
    subst hq
    exact ⟨fun _ => ih.stale (hstep ▸ cons_ne_nil _ _), ih.after, ih.first⟩
  | truncated _ _ _ hless ih => exact hupdate ih fun hr => (hr ▸ ih).truncated hless
  | freed _ _ _ ih => exact hupdate ih fun _ => .freed _
  | popped _ _ _ ih => exact hupdate ih fun _ => .freed _
  | cached _ _ _ _ ih => exact ih
  | skipped _ _ _ ih => exact ih
  | stepStarted _ _ ih => exact ih

/-- A removal on the processed tokens, less what is stale, stays in bounds. -/
theorem skipped_le (k : ManagerConfig) (p : Progress n m) (processed : ℕ)
    (hprocessed : (processed : ℤ) ≤ max 0 (p.numComputedTokens - p.numInFlightTokens)) (a : ℕ) :
    k.numSkippedBlocks processed ≤ max a (k.numSkippedBlocks p.base.toNat) := by
  refine le_max_of_le_right (numSkippedBlocks_mono k ?_)
  unfold Progress.numInFlightTokens at hprocessed
  unfold Progress.base
  omega

theorem Bounded.empty (k : ManagerConfig) (null : Fin n) (p : Progress n m) (i : Fin m) :
    Bounded k null p.freed i [] := by
  have hzero : p.freed.base.toNat = 0 := rfl
  refine ⟨0, ⟨[], rfl, not_mem_nil⟩, ⟨0, Nat.zero_le _, [], rfl, not_mem_nil⟩, fun _ => ?_⟩
  rw [hzero, numSkippedBlocks_zero]

section
variable (h : Bounded k null p i blocks)
include h

theorem Bounded.dispatched (numTokens : ℕ) : Bounded k null (p.dispatched numTokens) i blocks := by
  unfold Bounded
  rw [base_dispatched]
  exact h

/-- The base only grows, so null blocks stay below the window. -/
theorem Bounded.settled (hstep : p.unprocessed = step :: later)
    (hrejected : rejected ≤ step.numTokens) :
    Bounded k null (p.settled rejected later) i blocks := by
  obtain ⟨a, hadmitted, ⟨j, hj, hrecycled⟩, -⟩ := h
  refine ⟨a, hadmitted, ⟨j, hj.trans (max_le_max le_rfl ?_), hrecycled⟩,
    fun hfalse => nomatch hfalse⟩
  apply numSkippedBlocks_mono
  rw [base_settled hstep]
  omega

theorem Bounded.truncated (hfirst : p.processed = false)
    (hless : numComputedTokens ≤ p.numComputedTokens) :
    Bounded k null { p with numComputedTokens, truncated := true } i blocks := by
  obtain ⟨a, hadmitted, ⟨j, hj, hrecycled⟩, hskip⟩ := h
  have ha := hskip hfirst
  rw [max_eq_left ha] at hj
  refine ⟨a, hadmitted, ⟨j, le_max_of_le_left hj, hrecycled⟩, fun _ => le_trans ?_ ha⟩
  apply numSkippedBlocks_mono
  simp only [Progress.base]
  omega
end

theorem Scheduled.untracked (hc : Scheduled s p c)
    (hpos : c.numNewComputedTokens ≠ 0 ∨ c.numExternalComputedTokens ≠ 0) (j : Fin m) :
    (s.managers j).numCachedBlock c.request.requestId = none := by
  refine (hc.firstTime ?_ j).2
  rcases hpos with hlocal | hexternal
  · exact .inl (Option.ne_none_iff_isSome.mp fun hnone => hlocal (hc.noHits hnone))
  · exact .inr (Nat.pos_of_ne_zero hexternal)

/-- A call frees below the window of what has been processed, and only there. -/
theorem call_bounded (hrecycles : recycles (cfg.groups i).kind) (hc : Scheduled s p c)
    (hrun : (allocateSlots cfg c).run s = .ok taken t)
    (htable : TableHas null c.request.requestId (Bounded (cfg.groups i) null p i) (s.group i)) :
    TableHas null c.request.requestId
      (Bounded (cfg.groups i) null (if taken then p.allocated s t c else p) i) (t.group i) := by
  obtain ⟨hapart, a, hadmitted, hnulls, hskip⟩ := htable
  by_cases hblocks : ∀ i, (s.managers i).reqToBlocks c.request.requestId = []
  · -- an admission, the null blocks are those it puts
    have hnull : s.pool.nullBlock = null := hapart.2
    have hend := ((admission_stages hrecycles (hnull ▸ hc.hits i)
      (hc.nothing hblocks)).allocateSlots freeBlocks_nullKept nullKept_frame hc.noHits hc.untracked
      ⟨hapart, hblocks i⟩).of_ok hrun
    cases taken with
    | true =>
      obtain ⟨hapart', j, hj, hrecycled⟩ := hend
      refine ⟨hapart', j, ?_, ⟨j, le_max_left _ _, hrecycled⟩, fun _ => ?_⟩
      · rw [if_pos rfl, Progress.allocated, if_pos hblocks]
        exact hrecycled
      · rw [if_pos rfl, Progress.allocated, if_pos hblocks]
        simpa [Progress.base, tokens] using hj
    | false =>
      have hempty := hend.elim id id
      refine ⟨hempty.1, a, hadmitted, ⟨0, Nat.zero_le _, [], ?_, not_mem_nil⟩, hskip⟩
      simpa using hempty.2
  · obtain ⟨hsame, hnone⟩ := numComputedTokens_running (t := t) hc hblocks
    have hlocal := hc.noHits (Option.not_isSome_iff_eq_none.mp fun h => hnone (.inl h))
    have hcomputed := hc.computed
    have hinFlight := hc.inFlight
    have hbound := skipped_le (cfg.groups i) p
      (c.totalComputedTokens cfg - c.request.numInFlightTokens) (by
        unfold SlotCall.totalComputedTokens SlotCall.allComputedTokens
          SlotCall.numLocalComputedTokens
        omega) a
    have hend := ((running_stages hrecycles hnone hbound).allocateSlots freeBlocks_nullKept
      nullKept_frame hc.noHits hc.untracked ⟨hapart, hnulls⟩).of_ok hrun
    cases taken with
    | true =>
      rw [if_pos rfl, hsame]
      exact ⟨hend.1, a, hadmitted, hend.2, hskip⟩
    | false =>
      have hend := hend.elim id id
      exact ⟨hend.1, a, hadmitted, hend.2, hskip⟩

theorem call_other {r : RequestId} (hr : r ≠ c.request.requestId) (hc : Scheduled s p c)
    (hrun : (allocateSlots cfg c).run s = .ok taken t) {P : List (Fin n) → Prop}
    (htable : TableHas null r P (s.group i)) : TableHas null r P (t.group i) := by
  have hend := ((stages_other hr fun e => P e.blocks).allocateSlots freeBlocks_nullKept
    nullKept_frame hc.noHits hc.untracked htable).of_ok hrun
  cases taken with
  | true => exact hend
  | false => exact hend.elim id id

section
variable {q r : RequestId}
  (htable : TableHas null r (Bounded (cfg.groups i) null (progress r) i) (s.group i))
include htable

/-- The table stays and the progress of one request changes. -/
theorem bounded_update (hnew : ∀ blocks, Bounded (cfg.groups i) null (progress q) i blocks →
      Bounded (cfg.groups i) null p i blocks) :
    TableHas null r (Bounded (cfg.groups i) null (Function.update progress q p r) i)
      (s.group i) := by
  by_cases hq : r = q
  · subst hq
    rw [update_self]
    exact ⟨htable.1, hnew _ htable.2⟩
  · rwa [update_of_ne hq]

/-- A call bounds the table of its request and leaves those of the others. -/
theorem bounded_allocateSlots (hrecycles : recycles (cfg.groups i).kind)
    (hc : Scheduled s (progress c.request.requestId) c)
    (hrun : (allocateSlots cfg c).run s = .ok taken t) :
    TableHas null r (Bounded (cfg.groups i) null (Function.update progress c.request.requestId
      (if taken then (progress c.request.requestId).allocated s t c
        else progress c.request.requestId) r) i) (t.group i) := by
  by_cases hr : r = c.request.requestId
  · subst hr
    rw [update_self]
    exact call_bounded hrecycles hc hrun htable
  · rw [update_of_ne hr]
    exact call_other hr hc hrun htable

/-- An operation on all groups that leaves the request `q` no blocks. -/
theorem bounded_freed {W : Manager n → Manager n → Prop} {op : Fin m → ManagerM n PUnit}
    (hop : ∀ j, Within (Frame NullKept q W) (op j))
    (hempty : ∀ g : Group n, Apart null g.pool →
      Ensures (op i) g (fun _ t => TableHas null q (· = []) t) (fun _ _ => True)) :
    Ensures (forGroups op) s (fun _ t => TableHas null r
      (Bounded (cfg.groups i) null (Function.update progress q (progress q).freed r) i)
      (t.group i)) (fun _ _ => True) := by
  refine groups_table hop ?_ ?_ htable
  · intro hq g hg
    subst hq
    rw [update_self]
    refine (hempty g hg.1).weaken fun _ t ht => ?_
    exact ⟨ht.1, ht.2.symm ▸ Bounded.empty _ _ _ i⟩
  · intro hq blocks hb
    rwa [update_of_ne (Ne.symm hq)]

theorem bounded_cacheBlocks (hrecycles : recycles (cfg.groups i).kind) {request : CacheRequest}
    {numTokens : ℕ} (hrun : (Coordinator.cacheBlocks cfg request numTokens).run s = .ok ⟨⟩ t) :
    TableHas null r (Bounded (cfg.groups i) null (progress r) i) (t.group i) := by
  refine (groups_table (fun _ => manager_cacheBlocks_frame _ nullKept_frame request _ _ _)
    ?_ (fun _ _ hb => hb) htable).of_ok hrun
  intro hq g hg
  subst hq
  rw [cacheBlocks_eq hrecycles]
  exact cacheBlocks_table request _ _ _ hg

theorem bounded_removeSkippedBlocks (hk : isPaged (cfg.groups i).kind)
    (hrun : (Coordinator.removeSkippedBlocks cfg q
      ((progress q).numComputedTokens - (progress q).numInFlightTokens).toNat).run s =
        .ok ⟨⟩ t) :
    TableHas null r (Bounded (cfg.groups i) null (progress r) i) (t.group i) := by
  refine (groups_table (fun _ => manager_removeSkippedBlocks_frame freeBlocks_nullKept _ q _) ?_
    (fun _ _ hb => hb) htable).of_ok hrun
  intro hq g hg
  subst hq
  obtain ⟨hapart, a, hadmitted, hnulls, hskip⟩ := hg
  have hbound := skipped_le (cfg.groups i) (progress q)
    ((progress q).numComputedTokens - (progress q).numInFlightTokens).toNat (by omega) a
  refine (removeSkippedBlocks_nullsUpTo hk hbound ⟨hapart, hnulls⟩).weaken fun _ t ht => ?_
  exact ⟨ht.1, a, hadmitted, ht.2, hskip⟩

end

/-- Along every run the null blocks of a table stay below the window. -/
theorem Run.bounded (h : Run cfg s progress) (hrecycles : recycles (cfg.groups i).kind)
    (r : RequestId) :
    ∃ null, TableHas null r (Bounded (cfg.groups i) null (progress r) i) (s.group i) := by
  have hk := isPaged_of_recycles hrecycles
  induction h with
  | init hpool => exact ⟨_, ⟨hpool, rfl⟩, Bounded.empty _ _ .new i⟩
  | otherPool _ hpool ih =>
    obtain ⟨null, htable⟩ := ih
    exact ⟨null, tableHas_stable _ _ hpool htable⟩
  | allocated _ hc hrun ih =>
    obtain ⟨null, htable⟩ := ih
    exact ⟨null, bounded_allocateSlots htable hrecycles hc hrun⟩
  | refused _ hc hrun ih =>
    obtain ⟨null, htable⟩ := ih
    have hrefused := bounded_allocateSlots htable hrecycles hc hrun
    rw [if_neg Bool.false_ne_true, update_eq_self] at hrefused
    exact ⟨null, hrefused⟩
  | dispatched _ numTokens _ ih =>
    obtain ⟨null, htable⟩ := ih
    exact ⟨null, bounded_update htable fun _ hb => hb.dispatched numTokens⟩
  | settled _ _ _ _ hstep hrejected ih =>
    obtain ⟨null, htable⟩ := ih
    exact ⟨null, bounded_update htable fun _ hb => hb.settled hstep hrejected⟩
  | staleSettled _ _ _ _ _ ih =>
    obtain ⟨null, htable⟩ := ih
    exact ⟨null, bounded_update htable fun _ hb => hb⟩
  | truncated _ _ hfirst hless ih =>
    obtain ⟨null, htable⟩ := ih
    exact ⟨null, bounded_update htable fun _ hb => hb.truncated hfirst hless⟩
  | freed q _ hrun ih =>
    obtain ⟨null, htable⟩ := ih
    exact ⟨null, (bounded_freed htable (fun _ => manager_free_frame _ q nullKept_frame)
      fun g hg => free_table hk hg).of_ok hrun⟩
  | @popped s progress _ t q _ hrun ih =>
    obtain ⟨null, htable⟩ := ih
    have hpop := bounded_freed (q := q) htable
      (fun j => within_discard (manager_popBlocksForFree_frame (cfg.groups j) q nullKept_frame))
      fun g hg => (ensures_discard ..).mpr (popBlocksForFree_table hk hg)
    exact ⟨null, ((ensures_gatherLoop ..).mpr hpop).of_ok hrun⟩
  | cached _ _ _ hrun ih =>
    obtain ⟨null, htable⟩ := ih
    exact ⟨null, bounded_cacheBlocks htable hrecycles hrun⟩
  | skipped _ _ hrun ih =>
    obtain ⟨null, htable⟩ := ih
    exact ⟨null, bounded_removeSkippedBlocks htable hk hrun⟩
  | stepStarted _ hrun ih =>
    obtain ⟨null, htable⟩ := ih
    exact ⟨null, (forGroups_focus i (fun j _ => newStepStarts_nullKept _) tableHas_stable
      tableHas_stable (fun g hg => newStepStarts_tableHas _ hg) htable).of_ok hrun⟩

/-- Every query of a step of the admission, or of the next step, is past the
processed tokens. -/
theorem Ordered.base_le (h : Ordered p) {q : ℕ} (hq : p.Queries q) : p.base ≤ q := by
  rcases hq with hq | ⟨rejected, hrejected, hfrom⟩
  · exact h.after.le_of_queried hq
  · unfold Progress.base
    omega

theorem getElem?_of_recycled (h : Recycled null j blocks) (hidx : idx < j) :
    blocks[idx]? = some null := by
  obtain ⟨held, rfl, -⟩ := h
  rw [getElem?_append_left (by simpa using hidx), getElem?_replicate, if_pos hidx]

theorem ne_null_of_recycled {b : Fin n} (h : Recycled null j blocks) (hidx : j ≤ idx)
    (hb : blocks[idx]? = some b) : b ≠ null := by
  obtain ⟨held, rfl, hnull⟩ := h
  rw [getElem?_append_right (by simpa using hidx)] at hb
  intro heq
  subst heq
  exact hnull (mem_of_getElem? hb)

/-- The blocks in the window of a query in flight or of the next step stay. For
a query `q` and a position `p` of its window whose block is in the table: the
block is not null if it was not null when the request was admitted; and if the
admission had the window of its first query and no computed tokens were taken
back since, no such block is null for the steps of the admission. -/
theorem window_blocks_kept {window : ℕ+} {extra : ℕ}
    (hkind : (cfg.groups i).kind = .slidingWindow window extra) (h : Run cfg s progress)
    (r : RequestId) {q p : ℕ} (hwindow : q + 1 ≤ p + window) {b : Fin n}
    (hb : ((s.managers i).reqToBlocks r)[p / (cfg.groups i).blockSize]? = some b) :
    (Queried (progress r).stale q ∨ (progress r).Queries q →
      ((progress r).admitted i)[p / (cfg.groups i).blockSize]? ≠ some s.pool.nullBlock →
      b ≠ s.pool.nullBlock) ∧
    ((progress r).Queries q → (progress r).truncated = false →
      (∀ p' : ℕ, (progress r).first + 1 ≤ p' + window →
        ((progress r).admitted i)[p' / (cfg.groups i).blockSize]? ≠ some s.pool.nullBlock) →
      b ≠ s.pool.nullBlock) := by
  have hrecycles : recycles (cfg.groups i).kind := by rw [hkind]; rfl
  obtain ⟨null, hapart, a, hadmitted, ⟨j, hj, hrecycled⟩, hskip⟩ := h.bounded hrecycles r
  have hnull : s.pool.nullBlock = null := hapart.2
  have hordered := h.ordered r
  rw [hnull]
  -- blocks below the window of the processed tokens are below the window of `q`
  have hprocessed (hq : (progress r).Queries q) :
      (cfg.groups i).numSkippedBlocks (progress r).base.toNat ≤ p / (cfg.groups i).blockSize := by
    have hbase := hordered.base_le hq
    unfold ManagerConfig.numSkippedBlocks ManagerConfig.getNumSkippedTokens
    rw [hkind]
    apply Nat.div_le_div_right
    dsimp only
    omega
  have hfront (hp : ((progress r).admitted i)[p / (cfg.groups i).blockSize]? ≠ some null) :
      a ≤ p / (cfg.groups i).blockSize := by
    by_contra hlt
    exact hp (getElem?_of_recycled hadmitted (not_le.mp hlt))
  constructor
  · intro hq hp
    refine ne_null_of_recycled hrecycled (hj.trans (max_le (hfront hp) ?_)) hb
    rcases hq with hstale | hq
    · -- nothing of this admission is processed while a stale step is in flight
      have hne : (progress r).stale ≠ [] := by
        obtain ⟨earlier, step, later, hsteps, -⟩ := hstale
        rw [hsteps]
        simp
      exact (hskip (hordered.stale hne)).trans (hfront hp)
    · exact hprocessed hq
  · intro hq htruncated hfirst
    refine ne_null_of_recycled hrecycled (hj.trans (max_le (hfront (hfirst p ?_)) ?_)) hb
    · have hstart := hordered.first htruncated
      have hbase := hordered.base_le hq
      omega
    · exact hprocessed hq

/-- A window loses blocks from its front only: the null blocks of a table come first. -/
theorem window_nulls_first (hrecycles : recycles (cfg.groups i).kind) (h : Run cfg s progress)
    (r : RequestId) : NullsFirst s.pool.nullBlock ((s.managers i).reqToBlocks r) := by
  obtain ⟨null, hapart, -, -, ⟨j, -, hrecycled⟩, -⟩ := h.bounded hrecycles r
  have hnull : s.pool.nullBlock = null := hapart.2
  exact ⟨j, hnull ▸ hrecycled⟩
end

def twoChunkTables [NeZero n] (cfg : Config 1) (i : Fin 1) :
    Option (List (Fin n) × List (Fin n) × Fin n) :=
  match initPool n false 4 false with
  | .error _ => none
  | .ok pool =>
    match (allocateSlots cfg (SlotRuns.chunkCall 0 8 0)).run ⟨pool, fun _ => initManager⟩ with
    | .ok true t =>
      match (allocateSlots cfg (SlotRuns.chunkCall 8 4 0)).run t with
      | .ok true u =>
        some ((t.managers i).reqToBlocks 0, (u.managers i).reqToBlocks 0, u.pool.nullBlock)
      | _ => none
    | _ => none

theorem exists_run_of_twoChunkTables [NeZero n] (cfg : Config 1) (i : Fin 1)
    {first second : List (Fin n)} {null : Fin n} (hne : first ≠ [])
    (htables : twoChunkTables cfg i = some (first, second, null)) :
    ∃ (u : CacheState n 1) (progress : RequestId → Progress n 1), Run cfg u progress ∧
      (progress 0).unprocessed = [⟨8, 4⟩] ∧ (progress 0).admitted i = first ∧
      (u.managers i).reqToBlocks 0 = second ∧ u.pool.nullBlock = null := by
  obtain ⟨pool, hinit, hnew⟩ := initPool_spec (n := n) false 4 false
  rw [twoChunkTables, hinit] at htables
  dsimp only at htables
  split at htables
  · next t hfirst =>
    split at htables
    · next u hsecond =>
      simp only [Option.some.injEq, Prod.mk.injEq] at htables
      obtain ⟨hheld, htable, hnull⟩ := htables
      have hone := (((Run.init (nullApart_of_freeList hnew.free)).allocated
        ⟨rfl, rfl, fun _ => rfl, fun h => absurd h (by simp [SlotRuns.chunkCall]), fun _ => rfl,
          fun _ => ⟨0, [], rfl, not_mem_nil⟩⟩ hfirst).dispatched 0 8).settled 0 0 rfl rfl
          (Nat.zero_le _)
      have hblocks : ¬ ∀ i, (t.managers i).reqToBlocks 0 = [] :=
        fun h => hne (hheld.symm.trans (h i))
      have htwo := (hone.allocated
        ⟨rfl, rfl, fun _ => rfl, fun h => absurd h (by simp [SlotRuns.chunkCall]),
          fun h => absurd h hblocks, fun _ => ⟨0, [], rfl, not_mem_nil⟩⟩ hsecond).dispatched 0 4
      refine ⟨u, _, htwo, ?_, ?_, htable, hnull⟩
      · simp [Progress.dispatched, Progress.allocated, Progress.settled, SlotRuns.chunkCall,
          hblocks, SlotCall.allComputedTokens, SlotCall.numLocalComputedTokens, initManager]
      · simp [Progress.dispatched, Progress.allocated, Progress.settled, SlotRuns.chunkCall,
          hblocks, hheld, initManager]
    · exact absurd htables (by simp)
  · exact absurd htables (by simp)

/-- Eight tokens are processed and four more in flight, in blocks of four with a
window of four: the first block is gone, the second one stays. -/
theorem window_blocks_kept_second_chunk :
    ∃ (t : CacheState 8 1) (progress : RequestId → Progress 8 1) (b : Fin 8),
      Run (SlotRuns.oneGroup (.slidingWindow 4 0) false) t progress ∧
      Queried (progress 0).unprocessed 8 ∧
      ((t.managers 0).reqToBlocks 0)[0]? = some t.pool.nullBlock ∧
      ((t.managers 0).reqToBlocks 0)[1]? = some b ∧ b ≠ t.pool.nullBlock := by
  obtain ⟨u, progress, hrun, hsteps, hadmitted, htable, hnull⟩ := exists_run_of_twoChunkTables
    (n := 8) (SlotRuns.oneGroup (.slidingWindow 4 0) false) 0 (cons_ne_nil 1 [2])
    (show twoChunkTables (SlotRuns.oneGroup (.slidingWindow 4 0) false) 0 =
      some ([1, 2], [0, 2, 1], 0) by decide +kernel)
  have hquery : Queried (progress 0).unprocessed 8 := by
    rw [hsteps]
    exact ⟨[], ⟨8, 4⟩, [], rfl, 0, le_rfl, by decide, by decide⟩
  refine ⟨u, progress, 2, hrun, hquery, by rw [htable, hnull]; rfl, by rw [htable]; rfl, ?_⟩
  apply (window_blocks_kept rfl hrun 0 (q := 8) (p := 5) (by decide) (by rw [htable]; rfl)).1
  · exact .inr (.inl hquery)
  · rw [hadmitted, hnull]
    decide

theorem window_nulls_first_second_chunk : ∃ (t : CacheState 8 1) (p : RequestId → Progress 8 1),
    Run (SlotRuns.oneGroup (.slidingWindow 4 0) false) t p ∧
    (t.managers 0).reqToBlocks 0 = [0, 2, 1] ∧ NullsFirst t.pool.nullBlock [0, 2, 1] := by
  obtain ⟨t, p, hrun, -, -, htable, -⟩ := exists_run_of_twoChunkTables
    (n := 8) (SlotRuns.oneGroup (.slidingWindow 4 0) false) 0 (cons_ne_nil 1 [2])
    (show twoChunkTables (SlotRuns.oneGroup (.slidingWindow 4 0) false) 0 =
      some ([1, 2], [0, 2, 1], 0) by decide +kernel)
  exact ⟨t, p, hrun, htable, htable ▸ window_nulls_first rfl hrun 0⟩

end Vllm.WindowFrees
