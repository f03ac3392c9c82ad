import Vllm.AlignedSplit
import Vllm.RecycledTables

/-!
Runs of requests through `allocate_slots` and the steps in flight. A run knows
which tokens of a request are computed, which of them are still in flight, and
what the scheduler promises for a call. What every call does to the entries of
one request in one group carries over to the whole run.
-/
namespace Vllm.SlotRuns

open Outcome Pool CacheManagers KVCacheManager KVCacheRuns
open AlignedSplit (SpeculativeConfig)
open PoolFreeList NullBlock ManagerFrames ManagerPools PagedTables RecycledTables

variable {n m : ℕ}

def useEagle (spec : SpeculativeConfig) : Bool :=
  spec.method = .eagle ∨ spec.method = .eagle3 ∨ spec.method = .mtp ∨ spec.method = .dflash ∨
    spec.method = .dspark

structure VllmConfig where
  pipelineParallelSize : ℕ
  asyncScheduling : Bool
  useV2ModelRunner : Bool
  maxNumBatchedTokens : ℕ
  speculative : Option SpeculativeConfig

namespace VllmConfig

def maxConcurrentBatches (v : VllmConfig) : ℕ :=
  if v.asyncScheduling ∧ v.useV2ModelRunner then v.pipelineParallelSize + 1
  else if v.asyncScheduling ∧ v.pipelineParallelSize ≤ 1 then 2
  else v.pipelineParallelSize

def maxInFlightTokens (v : VllmConfig) : ℕ := v.maxConcurrentBatches * v.maxNumBatchedTokens

def numLookaheadTokens (v : VllmConfig) : ℕ :=
  match v.speculative with
  | none => 0
  | some spec =>
    if spec.useDflash then spec.numSpeculativeTokens + 1
    else if useEagle spec ∨ spec.usesDraftModel then spec.numSpeculativeTokens
    else 0

end VllmConfig

/-! ### Runs -/

/-- Where a request stands: its computed tokens and the chunks of its steps in
flight, oldest first. -/
structure Progress where
  numComputedTokens : ℕ
  unprocessed : List ℕ

/-- The progress of a request whose call succeeded. A call without new tokens
allocates for a load and schedules nothing. -/
def Progress.scheduled (p : Progress) (c : SlotCall n m) : Progress where
  numComputedTokens := c.allComputedTokens + c.numNewTokens
  unprocessed := if c.numNewTokens = 0 then p.unprocessed else p.unprocessed ++ [c.numNewTokens]

/-- What the scheduler promises when it calls `allocate_slots`: a chunk within
the token budget, a free place among the concurrent batches, and hits only with
a request that holds nothing yet, as the prefix-cache lookup returns them. -/
structure Scheduled (v : VllmConfig) (cfg : Config m) (s : CacheState n m)
    (progress : RequestId → Progress) (c : SlotCall n m) : Prop where
  computed : c.request.numComputedTokens = (progress c.request.requestId).numComputedTokens
  inFlight : c.request.numInFlightTokens = (progress c.request.requestId).unprocessed.sum
  chunk : c.numNewTokens ≤ v.maxNumBatchedTokens
  concurrent : (progress c.request.requestId).unprocessed.length < v.maxConcurrentBatches
  lookahead : c.numLookaheadTokens ≤ v.numLookaheadTokens
  total : c.allComputedTokens ≤ cfg.maxModelLen
  noHits : c.newComputedBlocks = none → c.numNewComputedTokens = 0
  firstTime : c.numNewComputedTokens ≠ 0 ∨ c.numExternalComputedTokens ≠ 0 →
    ∀ i, (s.managers i).reqToBlocks c.request.requestId = [] ∧
      (s.managers i).numCachedBlock c.request.requestId = none
  -- what the lookups find, see `LookupHits.Returned.nullsFirst`
  hits : ∀ i, NullsFirst s.pool.nullBlock (c.newComputedBlockList i) ∧
    (c.newComputedBlockList i).length ≤ cdiv c.numNewComputedTokens (cfg.groups i).blockSize

/-- Runs in which every successful call meets `Fits` in the state before it.
Steps settle in order and may reject draft tokens; a failed load makes computed
tokens invalid; other users of the pool leave the null block alone. -/
inductive Run (v : VllmConfig) (cfg : Config m) (Fits : CacheState n m → SlotCall n m → Prop) :
    CacheState n m → (RequestId → Progress) → Prop
  | init {pool : BlockPool n} (hpool : NullApart pool) :
      Run v cfg Fits ⟨pool, fun _ => initManager⟩ fun _ => ⟨0, []⟩
  | otherPool {s progress} {pool : BlockPool n} (hs : Run v cfg Fits s progress)
      (hpool : NullKept s.pool pool) : Run v cfg Fits { s with pool } progress
  | allocated {s progress c t} (hs : Run v cfg Fits s progress)
      (hc : Scheduled v cfg s progress c) (hfits : Fits s c)
      (hrun : (allocateSlots cfg c).run s = .ok true t) :
      Run v cfg Fits t (Function.update progress c.request.requestId
        ((progress c.request.requestId).scheduled c))
  | refused {s progress c t} (hs : Run v cfg Fits s progress)
      (hc : Scheduled v cfg s progress c)
      (hrun : (allocateSlots cfg c).run s = .ok false t) : Run v cfg Fits t progress
  | settled {s progress chunk rest} (r : RequestId) (rejected : ℕ)
      (hs : Run v cfg Fits s progress) (hchunk : (progress r).unprocessed = chunk :: rest)
      (hrejected : rejected ≤ chunk) :
      Run v cfg Fits s (Function.update progress r
        ⟨(progress r).numComputedTokens - rejected, rest⟩)
  | rolledBack {s progress} (r : RequestId) {numComputedTokens : ℕ}
      (hs : Run v cfg Fits s progress)
      (hless : numComputedTokens ≤ (progress r).numComputedTokens) :
      Run v cfg Fits s (Function.update progress r ⟨numComputedTokens, (progress r).unprocessed⟩)
  | freed {s progress t} (r : RequestId) (hs : Run v cfg Fits s progress)
      (hrun : (Coordinator.free cfg r).run s = .ok ⟨⟩ t) :
      Run v cfg Fits t (Function.update progress r ⟨0, (progress r).unprocessed⟩)
  | cached {s progress t} (r : CacheRequest) (numComputedTokens : ℕ)
      (hs : Run v cfg Fits s progress)
      (hrun : (Coordinator.cacheBlocks cfg r numComputedTokens).run s = .ok ⟨⟩ t) :
      Run v cfg Fits t progress
  | skipped {s progress t} (r : RequestId) (processedComputedTokens : ℕ)
      (hs : Run v cfg Fits s progress)
      (hrun : (Coordinator.removeSkippedBlocks cfg r processedComputedTokens).run s = .ok ⟨⟩ t) :
      Run v cfg Fits t progress
  | stepStarted {s progress t} (hs : Run v cfg Fits s progress)
      (hrun : (Coordinator.newStepStarts cfg).run s = .ok ⟨⟩ t) : Run v cfg Fits t progress

section
variable {v : VllmConfig} {cfg : Config m} {Fits : CacheState n m → SlotCall n m → Prop}
  {s : CacheState n m} {progress : RequestId → Progress} {c : SlotCall n m}

def Slots (cfg : Config m) (progress : RequestId → Progress) (slots : Ledger) : Prop :=
  ∀ r, min (progress r).numComputedTokens cfg.maxModelLen ≤ slots r

variable {slots : Ledger} {p : Progress}

theorem Slots.update (h : Slots cfg progress slots) (r : RequestId) (tokens : ℕ)
    (hp : min p.numComputedTokens cfg.maxModelLen ≤ tokens) :
    Slots cfg (Function.update progress r p) (Function.update slots r tokens) := by
  intro q
  by_cases hq : q = r
  · subst hq
    simpa using hp
  · simpa [hq] using h q

theorem Slots.lower (h : Slots cfg progress slots) (r : RequestId)
    (hp : p.numComputedTokens ≤ (progress r).numComputedTokens) :
    Slots cfg (Function.update progress r p) slots := by
  have hr := h r
  have hupdate := h.update r (p := p) (slots r) (by omega)
  rwa [Function.update_eq_self] at hupdate

/-- What the scheduler does is what the cache manager relies on. -/
theorem Scheduled.promised (hc : Scheduled v cfg s progress c) (hslots : Slots cfg progress slots) :
    Promised cfg s slots c where
  computed := by
    have hr := hslots c.request.requestId
    have htotal := hc.total
    rw [← hc.computed] at hr
    unfold SlotCall.allComputedTokens SlotCall.numLocalComputedTokens at htotal
    omega
  total := hc.total
  noHits := hc.noHits
  firstTime := hc.firstTime

theorem min_scheduled_le (cfg : Config m) (c : SlotCall n m) :
    min (c.allComputedTokens + c.numNewTokens) cfg.maxModelLen ≤ c.numTokensNeedSlot cfg := by
  unfold SlotCall.numTokensNeedSlot SlotCall.numTokensMainModel SlotCall.totalComputedTokens
  omega

/-- A run of the scheduler is a sequence of promised calls, with slots for the computed tokens. -/
theorem Run.reachable (h : Run v cfg Fits s progress) :
    ∃ slots, Reachable cfg s slots ∧ Slots cfg progress slots := by
  induction h with
  | init hpool => exact ⟨_, .init _, fun _ => by simp⟩
  | otherPool _ _ ih =>
    obtain ⟨slots, hs, hslots⟩ := ih
    exact ⟨slots, .otherPool _ hs, hslots⟩
  | allocated _ hc _ hrun ih =>
    obtain ⟨slots, hs, hslots⟩ := ih
    exact ⟨_, .allocated hs (hc.promised hslots) hrun, hslots.update _ _ (min_scheduled_le _ _)⟩
  | refused _ hc hrun ih =>
    obtain ⟨slots, hs, hslots⟩ := ih
    exact ⟨slots, .refused hs (hc.promised hslots) hrun, hslots⟩
  | settled r rejected _ _ _ ih =>
    obtain ⟨slots, hs, hslots⟩ := ih
    exact ⟨slots, hs, hslots.lower r (Nat.sub_le _ _)⟩
  | rolledBack r _ hless ih =>
    obtain ⟨slots, hs, hslots⟩ := ih
    exact ⟨slots, hs, hslots.lower r hless⟩
  | freed r _ hrun ih =>
    obtain ⟨slots, hs, hslots⟩ := ih
    exact ⟨_, .freed r hs hrun, hslots.update r 0 (by simp)⟩
  | cached r k _ hrun ih =>
    obtain ⟨slots, hs, hslots⟩ := ih
    exact ⟨slots, .cached r k hs hrun, hslots⟩
  | skipped r k _ hrun ih =>
    obtain ⟨slots, hs, hslots⟩ := ih
    exact ⟨slots, .skipped r k hs hrun, hslots⟩
  | stepStarted _ hrun ih =>
    obtain ⟨slots, hs, hslots⟩ := ih
    exact ⟨slots, .stepStarted hs hrun, hslots⟩

/-- A property of the entries of request `r` in group `i` holds in every run if
its own operations keep it. -/
theorem Run.entryHas {i : Fin m} {r : RequestId} {P : Fin n → Entry n → Prop}
    (h : Run v cfg Fits s progress) (hinit : ∀ null, P null (entry initManager r))
    (hcall : ∀ {s t : CacheState n m} {progress : RequestId → Progress} {c : SlotCall n m}
      {taken : Bool} {null : Fin n}, Run v cfg Fits s progress → Scheduled v cfg s progress c →
      c.request.requestId = r → (taken → Fits s c) → (allocateSlots cfg c).run s = .ok taken t →
      EntryHas null r (P null) (s.group i) → EntryHas null r (P null) (t.group i))
    (hskip : ∀ {null processed} {g : Group n}, EntryHas null r (P null) g →
      Ensures (Manager.removeSkippedBlocks (cfg.groups i) r processed) g
        (fun _ t => EntryHas null r (P null) t) (fun _ _ => True))
    (hcache : ∀ {null numTokens replay} {req : CacheRequest} {g : Group n}, req.requestId = r →
      EntryHas null r (P null) g →
      Ensures (Manager.cacheBlocks (cfg.groups i) req numTokens cfg.retentionInterval replay) g
        (fun _ t => EntryHas null r (P null) t) (fun _ _ => True))
    (hfree : ∀ {null} {g : Group n}, EntryHas null r (P null) g →
      Ensures (Manager.free (cfg.groups i) r) g (fun _ t => EntryHas null r (P null) t)
        (fun _ _ => True)) :
    ∃ null, EntryHas null r (P null) (s.group i) := by
  have hallocate {s t : CacheState n m} {progress : RequestId → Progress} {c : SlotCall n m}
      {taken : Bool} {null : Fin n} (hs : Run v cfg Fits s progress)
      (hc : Scheduled v cfg s progress c) (hfits : taken → Fits s c)
      (hrun : (allocateSlots cfg c).run s = .ok taken t)
      (hentry : EntryHas null r (P null) (s.group i)) : EntryHas null r (P null) (t.group i) := by
    by_cases hr : c.request.requestId = r
    · exact hcall hs hc hr hfits hrun hentry
    · have hfirst (hpos : c.numNewComputedTokens ≠ 0 ∨ c.numExternalComputedTokens ≠ 0)
          (j : Fin m) : (s.managers j).numCachedBlock c.request.requestId = none :=
        (hc.firstTime hpos j).2
      have hend := ((stages_other (fun h => hr h.symm) (P null)).allocateSlots freeBlocks_nullKept
        nullKept_frame hc.noHits hfirst hentry).of_ok hrun
      cases taken with
      | true => exact hend
      | false => exact hend.elim id id
  induction h with
  | init hpool => exact ⟨_, ⟨hpool, rfl⟩, hinit _⟩
  | otherPool _ hpool ih =>
    obtain ⟨null, hentry⟩ := ih
    exact ⟨null, entryHas_stable _ _ hpool hentry⟩
  | allocated hs hc hfits hrun ih =>
    obtain ⟨null, hentry⟩ := ih
    exact ⟨null, hallocate hs hc (fun _ => hfits) hrun hentry⟩
  | refused hs hc hrun ih =>
    obtain ⟨null, hentry⟩ := ih
    exact ⟨null, hallocate hs hc (fun htaken => by simp at htaken) hrun hentry⟩
  | settled _ _ _ _ _ ih => exact ih
  | rolledBack _ _ _ ih => exact ih
  | freed q _ hrun ih =>
    obtain ⟨null, hentry⟩ := ih
    refine ⟨null, (groups_entry (fun _ => manager_free_frame _ q nullKept_frame) ?_
      (fun _ _ he => he) hentry).of_ok hrun⟩
    intro hq g hg
    subst hq
    exact hfree hg
  | cached req k _ hrun ih =>
    obtain ⟨null, hentry⟩ := ih
    exact ⟨null, (groups_entry (fun _ => manager_cacheBlocks_frame _ nullKept_frame req _ _ _)
      (fun hq g hg => hcache hq hg) (fun _ _ he => he) hentry).of_ok hrun⟩
  | skipped q k _ hrun ih =>
    obtain ⟨null, hentry⟩ := ih
    refine ⟨null, (groups_entry
      (fun _ => manager_removeSkippedBlocks_frame freeBlocks_nullKept _ q _)
      ?_ (fun _ _ he => he) hentry).of_ok hrun⟩
    intro hq g hg
    subst hq
    exact hskip hg
  | stepStarted _ hrun ih =>
    obtain ⟨null, hentry⟩ := ih
    refine ⟨null, (forGroups_focus i (fun j _ => newStepStarts_nullKept _) entryHas_stable
      entryHas_stable (fun g hg => newStepStarts_entryHas _ hg) hentry).of_ok hrun⟩
end

/-! ### The chunks of one prompt -/

def oneGroup (kind : ManagerKind) (enableCaching : Bool) : Config 1 :=
  .single kind (Nat.succPNat 3) enableCaching 32

def oneBatch (maxNumBatchedTokens : ℕ) (speculative : Option SpeculativeConfig) : VllmConfig :=
  { pipelineParallelSize := 1, asyncScheduling := false, useV2ModelRunner := false,
    maxNumBatchedTokens, speculative }

def chunkCall (computed chunk lookahead : ℕ) : SlotCall n m where
  request :=
    { numPromptTokens := 16, promptTokenIds := some (List.range 16), outputTokenIds := [],
      allTokenIds := List.range 16, promptEmbeds := none, mmFeatures := [], loraRequest := none,
      cacheSalt := none, blockHashes := [[0], [1], [2], [3]], requestId := 0, status := .running,
      numComputedTokens := computed, numInFlightTokens := 0, sharedPrefixBoundary := 0 }
  numNewTokens := chunk
  numNewComputedTokens := 0
  newComputedBlocks := none
  numLookaheadTokens := lookahead
  numExternalComputedTokens := 0
  delayCacheBlocks := false
  fullSequenceMustFit := false
  reservedBlocks := 0
  hasScheduledReqs := false

/-- The chunks of the prompt, each settled before the next is scheduled, as long as
the calls meet `C`. -/
def serve (cfg : Config m) (C : CacheState n m → SlotCall n m → Prop)
    [∀ s c, Decidable (C s c)] (lookahead : ℕ) :
    ℕ → List ℕ → CacheState n m → Option (CacheState n m)
  | _, [], s => some s
  | computed, chunk :: chunks, s =>
    if C s (chunkCall computed chunk lookahead) then
      match (allocateSlots cfg (chunkCall computed chunk lookahead)).run s with
      | .ok true t => serve cfg C lookahead (computed + chunk) chunks t
      | _ => none
    else
      none

variable {v : VllmConfig} {cfg : Config m} {progress : RequestId → Progress}

theorem chunkCall_scheduled {s : CacheState n m} {computed chunk lookahead : ℕ}
    (hbatches : 0 < v.maxConcurrentBatches) (hlookahead : lookahead ≤ v.numLookaheadTokens)
    (hchunk : chunk ≤ v.maxNumBatchedTokens) (hlen : computed ≤ cfg.maxModelLen)
    (hprogress : progress 0 = ⟨computed, []⟩) :
    Scheduled v cfg s progress (chunkCall computed chunk lookahead) where
  computed := (congrArg Progress.numComputedTokens hprogress).symm
  inFlight := (congrArg (fun p => p.unprocessed.sum) hprogress).symm
  chunk := hchunk
  concurrent := by
    change (progress 0).unprocessed.length < _
    rw [hprogress]
    exact hbatches
  lookahead := hlookahead
  total := hlen
  noHits _ := rfl
  firstTime h := absurd h (by simp [chunkCall])
  hits _ := ⟨⟨0, [], rfl, List.not_mem_nil⟩, Nat.zero_le _⟩

/-- Serving the chunks of a prompt one by one is a run. -/
theorem Run.serve {C : CacheState n m → SlotCall n m → Prop} [∀ s c, Decidable (C s c)]
    {s t : CacheState n m} {computed lookahead : ℕ} {chunks : List ℕ}
    (hbatches : 0 < v.maxConcurrentBatches) (hlookahead : lookahead ≤ v.numLookaheadTokens)
    (hchunks : ∀ chunk ∈ chunks, 0 < chunk ∧ chunk ≤ v.maxNumBatchedTokens)
    (hlen : computed + chunks.sum ≤ cfg.maxModelLen) (hs : Run v cfg C s progress)
    (hprogress : progress 0 = ⟨computed, []⟩)
    (hserve : serve cfg C lookahead computed chunks s = some t) :
    ∃ progress', Run v cfg C t progress' := by
  induction chunks generalizing computed s progress with
  | nil =>
    cases hserve
    exact ⟨progress, hs⟩
  | cons chunk chunks ih =>
    rw [List.sum_cons] at hlen
    obtain ⟨hpos, hle⟩ := hchunks chunk List.mem_cons_self
    rw [SlotRuns.serve] at hserve
    split_ifs at hserve with hC
    split at hserve
    · next u hrun =>
      have hcall := hs.allocated (chunkCall_scheduled hbatches hlookahead hle (by omega) hprogress)
        hC hrun
      have hunprocessed : (Function.update progress 0 ((progress 0).scheduled
          (chunkCall (n := n) (m := m) computed chunk lookahead)) 0).unprocessed = [chunk] := by
        simp [Progress.scheduled, chunkCall, hprogress, Nat.pos_iff_ne_zero.mp hpos]
      have hsettled := hcall.settled 0 0 hunprocessed (Nat.zero_le _)
      refine ih (fun x hx => hchunks x (List.mem_cons_of_mem _ hx)) (by omega) hsettled ?_ hserve
      simp [Progress.scheduled, chunkCall, SlotCall.allComputedTokens,
        SlotCall.numLocalComputedTokens]
    · exact absurd hserve (by simp)

def heldAfter [NeZero n] (cfg : Config m) (i : Fin m) (C : CacheState n m → SlotCall n m → Prop)
    [∀ s c, Decidable (C s c)] (lookahead : ℕ) (chunks : List ℕ) : Option ℕ :=
  match initPool n cfg.enableCaching 4 false with
  | .ok pool =>
    (serve cfg C lookahead 0 chunks ⟨pool, fun _ => initManager⟩).map fun t =>
      heldBlocks t.pool.nullBlock ((t.managers i).reqToBlocks 0)
  | .error _ => none

theorem exists_run_of_heldAfter [NeZero n] (v : VllmConfig) (cfg : Config m) (i : Fin m)
    (C : CacheState n m → SlotCall n m → Prop) [∀ s c, Decidable (C s c)] (lookahead held : ℕ)
    (chunks : List ℕ) (hbatches : 0 < v.maxConcurrentBatches)
    (hlookahead : lookahead ≤ v.numLookaheadTokens)
    (hchunks : ∀ chunk ∈ chunks, 0 < chunk ∧ chunk ≤ v.maxNumBatchedTokens)
    (hlen : chunks.sum ≤ cfg.maxModelLen)
    (hheld : heldAfter cfg i C lookahead chunks = some held) :
    ∃ (t : CacheState n m) (progress : RequestId → Progress),
      Run v cfg C t progress ∧
        heldBlocks t.pool.nullBlock ((t.managers i).reqToBlocks 0) = held := by
  obtain ⟨pool, hinit, hnew⟩ := initPool_spec (n := n) cfg.enableCaching 4 false
  rw [heldAfter, hinit, Option.map_eq_some_iff] at hheld
  obtain ⟨t, hserve, hheld⟩ := hheld
  obtain ⟨progress, hrun⟩ := Run.serve hbatches hlookahead hchunks (by omega)
    (.init (nullApart_of_freeList hnew.free)) rfl hserve
  exact ⟨t, progress, hrun, hheld⟩

/-- However steps are settled, refused or rolled back, every computed token of a request
has a slot in each paged group. -/
theorem computed_tokens_have_slots {s : CacheState n m} {i : Fin m}
    (hk : isPaged (cfg.groups i).kind) (h : Run v cfg (fun _ _ => True) s progress)
    (r : RequestId) : min (progress r).numComputedTokens cfg.maxModelLen ≤
      ((s.managers i).reqToBlocks r).length * (cfg.groups i).blockSize := by
  obtain ⟨slots, hreachable, hslots⟩ := h.reachable
  have hslotted := pagedInv_run.reachable hreachable i hk r
  exact (hslots r).trans hslotted.2

theorem computed_tokens_have_slots_two_chunks : ∃ (t : CacheState 8 1) (p : RequestId → Progress),
    Run (oneBatch 8 none) (oneGroup .fullAttention false) (fun _ _ => True) t p ∧
      heldBlocks t.pool.nullBlock ((t.managers 0).reqToBlocks 0) = 3 ∧
      min (p 0).numComputedTokens 32 ≤ ((t.managers 0).reqToBlocks 0).length * 4 := by
  obtain ⟨t, p, hrun, hheld⟩ := exists_run_of_heldAfter (n := 8) (oneBatch 8 none)
    (oneGroup .fullAttention false) 0 (fun _ _ => True) 0 3 [4, 8] (by decide) (by decide)
    (by decide) (by decide) (by decide +kernel)
  exact ⟨t, p, hrun, hheld, computed_tokens_have_slots rfl hrun 0⟩

end Vllm.SlotRuns
