import Vllm.AlignedSplit
import Vllm.EncoderCache
import Vllm.InvalidBlocks
import Vllm.RequestQueue

/-!
The state of the scheduler and what its operations do to one request. Requests
are kept in a dictionary and the queues hold their ids: a request is in one
queue at a time and is changed in place. Token counts are integers as in the
source; the cache manager gets them as natural numbers. Metrics, logging, client
indices, block zeroing and routed experts are left out.
-/
namespace Vllm.Scheduler

open Outcome BlockHashing CacheManagers KVCacheManager EncoderCache RequestQueue
open AlignedSplit (SpeculativeConfig SplitConfig mambaBlockAlignedSplit draftSlots)
open StreamingSession (RequestStatus StreamingUpdate updateRequestAsSession)

variable {n m : ℕ}

/-! ### Requests -/

structure RepetitionDetectionParams where
  maxPatternSize : ℤ
  minPatternSize : ℤ
  minCount : ℤ

structure SamplingParams where
  eosTokenId : Option ℕ
  stopTokenIds : List ℕ
  minTokens : ℕ
  repetitionDetection : Option RepetitionDetectionParams

structure SessionUpdate extends StreamingUpdate where
  samplingParams : SamplingParams
  embedMasks : List (Option (List Bool))

/-- A request. `embedMasks` holds the masks of its multimodal items, in order. -/
structure SchedRequest extends Request where
  requestId : RequestId
  status : RequestStatus
  priority : ℤ
  arrivalTime : ℕ
  embedMasks : List (Option (List Bool))
  samplingParams : SamplingParams
  poolingParams : Bool
  maxTokens : ℕ
  numComputedTokens : ℤ
  numInFlightTokens : ℤ
  numOutputPlaceholders : ℤ
  numStaleOutputTokens : ℤ
  dropStaleOutput : Bool
  specTokenIds : List ℤ
  isPrefillChunk : Bool
  numPreemptions : ℕ
  nextDecodeEligibleStep : ℕ
  lastSchedSeq : ℕ
  sharedPrefixBoundary : ℕ
  resumable : Bool
  streamingQueue : Option (List (Option SessionUpdate))

def isFinished : RequestStatus → Bool
  | .finishedStopped => true
  | .finishedLengthCapped => true
  | .finishedAborted => true
  | .finishedIgnored => true
  | .finishedError => true
  | .finishedRepetition => true
  | _ => false

def isBlockedWaitingStatus : RequestStatus → Bool
  | .waitingForStructuredOutputGrammar => true
  | .waitingForRemoteKvs => true
  | .waitingForStreamingReq => true
  | _ => false

namespace SchedRequest

variable (r : SchedRequest)

def numTokensWithSpec : ℤ := r.numTokens + r.specTokenIds.length

def numOutputTokens : ℕ := r.outputTokenIds.length

def encoderRequest : EncoderRequest where
  requestId := r.requestId
  mmFeatures := r.mmFeatures.mapIdx fun i f => ⟨f, (r.embedMasks[i]?).getD none⟩

def toCacheRequest : CacheRequest :=
  { toRequest := r.toRequest
    requestId := r.requestId
    status := r.status
    numComputedTokens := r.numComputedTokens.toNat
    numInFlightTokens := r.numInFlightTokens.toNat
    sharedPrefixBoundary := r.sharedPrefixBoundary }

def lt (a b : SchedRequest) : Bool :=
  if a.priority ≠ b.priority then a.priority < b.priority
  else if a.arrivalTime ≠ b.arrivalTime then a.arrivalTime < b.arrivalTime
  else a.requestId < b.requestId

end SchedRequest

def hasRepeatingPattern (reversed : List ℕ) (patternLen minCount : ℕ) : Bool :=
  (List.range patternLen).all fun k =>
    (List.range (minCount - 1)).all fun i =>
      reversed[patternLen * (i + 1) + k]? == reversed[k]?

def findRepetition (reversed : List ℕ) (minCount : ℕ) : ℕ → ℕ → Bool
  | 0, _ => false
  | fuel + 1, patternLen =>
    if reversed.length < patternLen * minCount then false
    else if hasRepeatingPattern reversed patternLen minCount then true
    else findRepetition reversed minCount fuel (patternLen + 1)

def checkSequenceRepetition (tokenIds : List ℕ) (params : RepetitionDetectionParams) : Bool :=
  let minPatternSize := if params.minPatternSize ≤ 0 then 1 else params.minPatternSize
  if params.maxPatternSize ≤ 0 ∨ params.minCount < 2 ∨ params.maxPatternSize < minPatternSize then
    false
  else
    findRepetition tokenIds.reverse params.minCount.toNat
      (params.maxPatternSize - minPatternSize + 1).toNat minPatternSize.toNat

def checkStop (maxModelLen : ℕ) (r : SchedRequest) : Option RequestStatus :=
  let last := r.outputTokenIds.getLast?
  if last = r.samplingParams.eosTokenId then some .finishedStopped
  else if (last.any fun token => token ∈ r.samplingParams.stopTokenIds) then some .finishedStopped
  else if maxModelLen ≤ r.numTokens ∨ r.maxTokens ≤ r.numOutputTokens then
    some .finishedLengthCapped
  else if r.numOutputTokens < r.samplingParams.minTokens then none
  else if r.samplingParams.repetitionDetection.any (checkSequenceRepetition r.outputTokenIds) then
    some .finishedRepetition
  else none

/-! ### The scheduler -/

inductive PauseState where
  | unpaused
  | pausedNew
  | pausedAll
deriving DecidableEq, Repr

structure SchedConfig (m : ℕ) where
  split : SplitConfig m
  speculative : Option SpeculativeConfig
  hasher : Option (Request → List BlockHash)
  policy : SchedulingPolicy
  asyncScheduling : Bool
  needMambaBlockAlignedSplit : Bool
  maxNumRunningReqs : ℕ
  enableChunkedPrefill : Bool
  numSampledTokensPerStep : ℕ
  numSpecTokens : ℕ
  dynamicSdLookup : Option (ℕ → ℕ)
  numLookaheadTokens : ℕ
  numPrefillLookahead : ℕ
  maxNumEncoderInputTokens : ℕ
  isEncoderDecoder : Bool
  disableChunkedMmInput : Bool
  isMmEncoderOnly : Bool
  maxLoras : Option ℕ
  hasConnector : Bool
  hasEcConnector : Bool
  requiresKvDelivery : Bool
  recomputeKvLoadFailures : Bool
  useV2ModelRunner : Bool
  ppSize : ℕ
  deferBlockFree : Bool
  schedulerReserveFullIsl : Bool

namespace SchedConfig

variable (cfg : SchedConfig m)

def cache : Config m := cfg.split.cache

def maxNumScheduledTokens : ℕ := cfg.split.scheduler.tokenBudget

def maxNumBatchedTokens : ℕ := cfg.split.scheduler.maxNumBatchedTokens

def longPrefillTokenThreshold : ℕ := cfg.split.scheduler.longPrefillTokenThreshold

def maxModelLen : ℕ := cfg.cache.maxModelLen

def draftSlots : ℕ := AlignedSplit.draftSlots cfg.speculative

def alignedSplit (r : SchedRequest) (numNewTokens : ℤ) (numLocal numExternal : ℕ) : ℤ :=
  if 0 ≤ numNewTokens then
    mambaBlockAlignedSplit cfg.split r.toCacheRequest numNewTokens.toNat numLocal numExternal
  else if (AlignedSplit.prefillEnd r.toCacheRequest : ℤ) ≤
      r.numComputedTokens + numLocal + numExternal then
    numNewTokens
  else
    0

def reservePrefillLookahead (r : SchedRequest) (numComputedTokens numNewTokens : ℤ) : ℤ :=
  let remaining := r.numTokens - numComputedTokens - numNewTokens
  max 0 (if 0 < remaining ∧ remaining < cfg.numPrefillLookahead then
      numNewTokens - (cfg.numPrefillLookahead - remaining)
    else
      numNewTokens)

end SchedConfig

structure SchedulerState (n m : ℕ) where
  cache : CacheState n m
  encoder : EncoderManager
  requests : OrderedDict RequestId SchedRequest
  running : List RequestId
  waiting : List RequestId
  skippedWaiting : List RequestId
  numWaitingForStreamingInput : ℤ
  finishedReqIds : List RequestId
  resetPreemptedReqIds : List RequestId
  finishedRecvingKvReqIds : Finset RequestId
  failedRecvingKvReqIds : Finset RequestId
  grammarCompileErrorReqs : Finset RequestId
  inflightPrefills : Finset RequestId
  currentStep : ℕ
  prefillCapacityBound : Bool
  schedStepSeq : ℕ
  processedStepSeq : ℕ
  deferredFrees : List (ℕ × List (Fin n))
  pauseState : PauseState

abbrev SchedM (n m : ℕ) := EStateM Failure (SchedulerState n m)

namespace SchedulerState

def lt (s : SchedulerState n m) (a b : RequestId) : Bool :=
  match s.requests.get? a, s.requests.get? b with
  | some a, some b => a.lt b
  | _, _ => false

def modifyRequest (s : SchedulerState n m) (r : RequestId) (f : SchedRequest → SchedRequest) :
    SchedulerState n m :=
  match s.requests.get? r with
  | none => s
  | some request => { s with requests := s.requests.set r (f request) }

end SchedulerState

def onCache {α : Type} (op : CacheM n m α) : SchedM n m α :=
  zoom (fun s => s.cache) (fun s cache => { s with cache }) op

def onEncoder {α : Type} (op : EncoderM α) : SchedM n m α :=
  zoom (fun s => s.encoder) (fun s encoder => { s with encoder }) op

def returnBlocks (blocks : List (Fin n)) : SchedM n m PUnit :=
  onCache (zoom (fun s => s.pool) (fun s pool => { s with pool }) (Pool.freeBlocks blocks))

def getRequest (r : RequestId) : SchedM n m SchedRequest := do
  let s ← get
  expect (s.requests.get? r) (.keyError (toString r))

def modifyRequest (r : RequestId) (f : SchedRequest → SchedRequest) : SchedM n m PUnit :=
  modify fun s => s.modifyRequest r f

variable (cfg : SchedConfig m) (r : RequestId)

def enqueueWaitingRequest (status : RequestStatus) : SchedM n m PUnit :=
  modify fun s =>
    if isBlockedWaitingStatus status then
      { s with skippedWaiting := addRequest cfg.policy s.lt s.skippedWaiting r }
    else
      { s with waiting := addRequest cfg.policy s.lt s.waiting r }

def freeRequestBlocks : SchedM n m PUnit := do
  -- Blocks that a step in flight may write are freed when it has been processed.
  let request ← getRequest r
  let s ← get
  if cfg.deferBlockFree = false ∨ request.lastSchedSeq ≤ s.processedStepSeq then
    onCache (Coordinator.free cfg.cache r)
  else
    let blocks ← onCache (Coordinator.popBlocksForFree cfg.cache r)
    onlyIf (blocks ≠ []) do
      modify fun s => { s with deferredFrees := s.deferredFrees ++ [(s.schedStepSeq, blocks)] }

def freeCowRetainedBlocks (blocks : List (Fin n)) (fenceSeq : ℕ) : SchedM n m PUnit := do
  let s ← get
  if cfg.deferBlockFree = false ∨ fenceSeq ≤ s.processedStepSeq then
    returnBlocks blocks
  else
    set { s with deferredFrees := s.deferredFrees ++ [(fenceSeq, blocks.reverse)] }

def drainLoop : List (ℕ × List (Fin n)) → SchedM n m PUnit
  -- Fences are satisfied from the front.
  | [] => return ⟨⟩
  | (fence, blocks) :: rest => do
    let s ← get
    if s.processedStepSeq < fence then
      return ⟨⟩
    else
      set { s with deferredFrees := rest }
      returnBlocks blocks.reverse
      drainLoop rest

def drainDeferredFrees : SchedM n m PUnit := do
  let s ← get
  drainLoop s.deferredFrees

/-- What a preemption resets. Output in flight becomes stale. -/
def SchedRequest.preempted (dropStaleOutput : Bool) (r : SchedRequest) : SchedRequest :=
  { r with
    status := .preempted
    numComputedTokens := 0
    specTokenIds := []
    dropStaleOutput :=
      dropStaleOutput || (r.dropStaleOutput && decide (0 < r.numStaleOutputTokens))
    numStaleOutputTokens := r.numInFlightTokens
    numOutputPlaceholders := 0
    numPreemptions := r.numPreemptions + 1 }

def preemptRequest (dropStaleOutput : Bool) : SchedM n m PUnit := do
  -- The caller has taken the request out of `running`.
  let request ← getRequest r
  check (request.status = .running) (.assertionError "Only running requests can be preempted")
  freeRequestBlocks cfg r
  onEncoder (EncoderManager.free request.encoderRequest)
  modify fun s => { s with inflightPrefills := s.inflightPrefills.erase r }
  modifyRequest r (SchedRequest.preempted dropStaleOutput)
  modify fun s => { s with
    waiting := prependRequest cfg.policy s.lt s.waiting r
    resetPreemptedReqIds := r :: s.resetPreemptedReqIds }

/-- The session that an update continues; the block hashes grow with its
tokens. -/
def SchedRequest.continued (hasher : Option (Request → List BlockHash)) (r : SchedRequest)
    (update : SessionUpdate) : Except Failure SchedRequest := do
  let (session, _) ← updateRequestAsSession hasher
    { toRequest := r.toRequest
      numComputedTokens := r.numComputedTokens.toNat
      status := r.status
      arrivalTime := r.arrivalTime } 0 update.toStreamingUpdate
  return { r with
    toRequest := session.toRequest
    embedMasks := (List.range r.mmFeatures.length).map (fun i => (r.embedMasks[i]?).getD none) ++
      update.embedMasks
    samplingParams := update.samplingParams
    arrivalTime := session.arrivalTime
    status := session.status }

def continueSession (update : SessionUpdate) : SchedM n m PUnit := do
  let request ← getRequest r
  match request.continued cfg.hasher update with
  | .error e => throw e
  | .ok continued =>
    modify fun s => { s with
      requests := s.requests.set r continued
      numWaitingForStreamingInput :=
        if request.status = .waitingForStreamingReq then s.numWaitingForStreamingInput - 1
        else s.numWaitingForStreamingInput }

end Vllm.Scheduler
