import Vllm.Schedule

/-!
The other operations of the scheduler: processing the output of a step, adding
and finishing requests, draft tokens, resets and pausing. The answers of the
model runner, of the connectors and of the grammar are part of the runner's
output. The outputs sent to the clients are left out.
-/
namespace Vllm.Scheduler

open Outcome BlockHashing CacheManagers KVCacheManager EncoderCache RequestQueue InvalidBlocks
open StreamingSession (RequestStatus StreamingUpdate)

variable {n m : ℕ}

/-- What comes back for a step. `delaysFree` is the answer of the connectors
when a request finishes: they keep its blocks for a transfer. -/
structure RunnerOutput (n : ℕ) where
  sampledTokenIds : RequestId → List ℕ
  hasPoolerOutput : RequestId → Bool
  grammarRejects : RequestId → Bool
  invalidBlockIds : List (Fin n)
  finishedRecving : List RequestId
  finishedSending : List RequestId
  delaysFree : RequestId → Bool

variable (cfg : SchedConfig m)

/-! ### Finishing requests -/

variable (s : SchedulerState n m) (request : SchedRequest) (r : RequestId)

def freeBlocks : SchedM n m PUnit := do
  let request ← getRequest r
  check (isFinished request.status = true) (.assertionError "request.is_finished()")
  freeRequestBlocks cfg r
  modify fun s => { s with requests := s.requests.erase r }

def connectorFinished : SchedM n m PUnit :=
  onlyIf (cfg.hasConnector = true) (onCache (Coordinator.removeSkippedBlocks cfg.cache
    request.requestId (max 0 (request.numComputedTokens - request.numInFlightTokens)).toNat))

def freeRequest (delaysFree : RequestId → Bool) (r : RequestId) (delayFreeBlocks : Bool) :
    SchedM n m PUnit := do
  let request ← getRequest r
  check (isFinished request.status = true) (.assertionError "request.is_finished()")
  modify fun s => { s with inflightPrefills := s.inflightPrefills.erase r }
  connectorFinished cfg request
  onEncoder (EncoderManager.free request.encoderRequest)
  modify fun s => { s with finishedReqIds := r :: s.finishedReqIds }
  onlyIf (delayFreeBlocks = false ∧ (cfg.hasConnector = false ∧ cfg.hasEcConnector = false ∨
    delaysFree r = false)) (freeBlocks cfg r)

def removeAll (requests removed : List RequestId) : List RequestId :=
  -- A single item is taken out once.
  match removed with
  | [] => requests
  | [r] => requests.erase r
  | _ => requests.filter fun r => r ∉ removed

def finishRequest (delaysFree : RequestId → Bool) (finishedStatus : RequestStatus)
    (r : RequestId) : SchedM n m PUnit := do
  let request ← getRequest r
  let s ← get
  let remote := decide (request.status = .waitingForRemoteKvs)
  let delayFreeBlocks := remote && decide (r ∉ s.finishedRecvingKvReqIds)
  onlyIf (remote = true) (modify fun s => { s with
    finishedRecvingKvReqIds := s.finishedRecvingKvReqIds.erase r
    failedRecvingKvReqIds := s.failedRecvingKvReqIds.erase r })
  modifyRequest r fun request => { request with status := finishedStatus }
  freeRequest cfg delaysFree r delayFreeBlocks

def unfinishedAmong (ids : List RequestId) : List RequestId :=
  ids.dedup.filter fun r => (s.requests.get? r).any fun request => !isFinished request.status

def hasStatus (status : RequestStatus) (r : RequestId) : Bool :=
  (s.requests.get? r).any fun request => decide (request.status = status)

/-- The first pass of `finish_requests`: the requests leave the queues. -/
def leaveQueues (valid : List RequestId) (s : SchedulerState n m) : SchedulerState n m :=
  let running := valid.filter (hasStatus s .running)
  let waiting := valid.filter fun r => !hasStatus s .running r
  { s with
    running := removeAll s.running running
    waiting := if waiting = [] then s.waiting
      else removeRequests cfg.policy s.lt s.waiting fun r => r ∈ waiting
    skippedWaiting := if waiting = [] then s.skippedWaiting
      else removeRequests cfg.policy s.lt s.skippedWaiting fun r => r ∈ waiting
    numWaitingForStreamingInput := s.numWaitingForStreamingInput -
      (valid.filter (hasStatus s .waitingForStreamingReq)).length }

def finishRequests (delaysFree : RequestId → Bool) (ids : List RequestId)
    (finishedStatus : RequestStatus) : SchedM n m PUnit := do
  check (isFinished finishedStatus = true)
    (.assertionError "RequestStatus.is_finished(finished_status)")
  let s ← get
  let valid := unfinishedAmong s ids
  set (leaveQueues cfg valid s)
  forM valid (finishRequest cfg delaysFree finishedStatus)

/-! ### Adding requests -/

def SchedRequest.streamingUpdate (r : SchedRequest) : Option SessionUpdate :=
  if r.resumable then
    some
      { mmFeatures := r.mmFeatures
        promptTokenIds := r.promptTokenIds
        arrivalTime := r.arrivalTime
        samplingParams := r.samplingParams
        embedMasks := r.embedMasks }
  else
    none

def addRequest (delaysFree : RequestId → Bool) (request : SchedRequest) : SchedM n m PUnit := do
  -- The id of a known request names its streaming session.
  let r := request.requestId
  let s ← get
  match s.requests.get? r with
  | none =>
    set { s with requests := s.requests.set r { request with
      streamingQueue := if request.resumable then some [] else request.streamingQueue } }
    enqueueWaitingRequest cfg r request.status
  | some existing =>
    if existing.status ≠ .waitingForStreamingReq then
      let queue ← expect existing.streamingQueue (.assertionError "duplicate request id")
      modifyRequest r fun q => { q with
        streamingQueue := some (queue ++ [request.streamingUpdate]) }
    else
      match request.streamingUpdate with
      | some update => continueSession cfg r update
      | none => finishRequests cfg delaysFree [r] .finishedAborted

/-! ### The output of a step -/

def freeEncoderInputs : SchedM n m PUnit := do
  let s ← get
  forM (s.encoder.getCachedInputIds request.encoderRequest).sort fun inputId => do
    let f ← request.encoderRequest.feature inputId
    onlyIf ((cfg.isEncoderDecoder = true ∧ 0 < request.numComputedTokens) ∨
        (f.mmPosition.offset + f.mmPosition.length + cfg.numPrefillLookahead : ℤ) ≤
          request.numComputedTokens - request.numOutputPlaceholders)
      (onEncoder (EncoderManager.freeEncoderInput request.encoderRequest inputId))

def appendTokens (r : SchedRequest) : List ℕ → SchedRequest × ℕ × Bool
  -- The tokens of a step are appended until one stops the request.
  | [] => (r, 0, false)
  | token :: tokens =>
    let r := { r with toRequest := appendOutputTokenIds cfg.hasher r.toRequest [token] }
    match checkStop cfg.maxModelLen r with
    | some status => ({ r with status }, 1, true)
    | none =>
      let (r, k, stopped) := appendTokens r tokens
      (r, k + 1, stopped)

/-- `_update_request_with_output`, with the override of the asynchronous
scheduler: the number of new tokens that were kept, and whether one of them
stopped the request. -/
def updateRequestWithOutput (newTokenIds : List ℕ) (isStale : Bool) : SchedM n m Bool := do
  let request ← getRequest r
  check (request.poolingParams = false) (.assertionError "not request.pooling_params")
  let (updated, kept, stopped) := appendTokens cfg request newTokenIds
  let placeholders := if cfg.asyncScheduling = true ∧ isStale = false
    then updated.numOutputPlaceholders - kept else updated.numOutputPlaceholders
  modifyRequest r fun _ => { updated with numOutputPlaceholders := placeholders }
  onlyIf (cfg.asyncScheduling = true) do
    check (isStale = true ∨ 0 ≤ placeholders)
      (.assertionError "request.num_output_placeholders >= 0")
    onlyIf (request.status = .running)
      (onCache (KVCacheManager.cacheBlocks cfg.cache updated.toCacheRequest
        (updated.numComputedTokens - placeholders).toNat))
  return stopped

def handleStoppedRequest : SchedM n m Bool := do
  let request ← getRequest r
  if request.resumable = false then
    return true
  else
    match request.streamingQueue.getD [] with
    | [] =>
      modify fun s => { s with numWaitingForStreamingInput := s.numWaitingForStreamingInput + 1 }
      modifyRequest r fun q => { q with status := .waitingForStreamingReq }
      enqueueWaitingRequest cfg r .waitingForStreamingReq
      return false
    | none :: queue =>
      modifyRequest r fun q => { q with streamingQueue := some queue }
      return true
    | some update :: queue =>
      modifyRequest r fun q => { q with streamingQueue := some queue }
      continueSession cfg r update
      enqueueWaitingRequest cfg r .waiting
      return false

def SchedRequest.drained (r : SchedRequest) (numTokensScheduled : ℤ) : SchedRequest :=
  -- The tokens of a step are no longer in flight. Stale output is counted off.
  { r with
    numInFlightTokens := r.numInFlightTokens - numTokensScheduled
    numStaleOutputTokens :=
      if 0 < r.numStaleOutputTokens then r.numStaleOutputTokens - numTokensScheduled
      else r.numStaleOutputTokens }

/-- The tokens in flight are taken off. Returns whether the output is stale. -/
def drainInFlight (numTokensScheduled : ℤ) : SchedM n m Bool := do
  let s ← get
  match s.requests.get? r with
  | none => return false
  | some request =>
    let stale := decide (0 < request.numStaleOutputTokens)
    modifyRequest r fun q => q.drained numTokensScheduled
    check (stale = false ∨ numTokensScheduled ≤ request.numStaleOutputTokens)
      (.assertionError "request.num_stale_output_tokens >= 0")
    return stale

def SchedRequest.rejected (r : SchedRequest) (numRejected : ℤ) : SchedRequest :=
  -- Rejected drafts are taken off the counters.
  { r with
    numComputedTokens :=
      if 0 < r.numComputedTokens then r.numComputedTokens - numRejected else r.numComputedTokens
    numOutputPlaceholders :=
      if 0 < r.numOutputPlaceholders then r.numOutputPlaceholders - numRejected
      else r.numOutputPlaceholders }

def rejectDrafts (numDraftTokens numGenerated : ℕ) (isStale : Bool) : SchedM n m PUnit :=
  onlyIf (numDraftTokens ≠ 0 ∧ (numGenerated ≠ 0 ∨ cfg.numSampledTokensPerStep = 0) ∧
      isStale = false) do
    let numAccepted := numGenerated - cfg.numSampledTokensPerStep
    modifyRequest r fun q => q.rejected ((numDraftTokens : ℤ) - numAccepted)

def consumeOutput (res : RunnerOutput n) (r : RequestId) (isStale : Bool) : SchedM n m Bool := do
  let request ← getRequest r
  if res.sampledTokenIds r ≠ [] then
    updateRequestWithOutput cfg r (res.sampledTokenIds r) isStale
  else if (request.poolingParams = true ∧ res.hasPoolerOutput r = true) ∨
      (cfg.isMmEncoderOnly = true ∧ (request.numPromptTokens : ℤ) ≤ request.numComputedTokens) then
    modifyRequest r fun q => { q with status := .finishedStopped }
    return true
  else
    return false

def rejectGrammar (res : RunnerOutput n) (r : RequestId) (stopped : Bool) : SchedM n m Bool := do
  -- A request that the grammar turns down ends with an error.
  if res.sampledTokenIds r ≠ [] ∧ res.grammarRejects r = true then
    modifyRequest r fun q => { q with status := .finishedError, resumable := false }
    return true
  else
    return stopped

structure StoppedReqs where
  stoppedRunningReqs : List RequestId
  stoppedPreemptedReqs : List RequestId

def concludeRequest (res : RunnerOutput n) (r : RequestId) : SchedM n m PUnit := do
  let finished ← handleStoppedRequest cfg r
  onlyIf (finished = true) (freeRequest cfg res.delaysFree r false)

def applyOutput (out : SchedulerOutput n) (res : RunnerOutput n) (request : SchedRequest)
    (isStale : Bool) (stoppedReqs : StoppedReqs) : SchedM n m StoppedReqs := do
  let r := request.requestId
  rejectDrafts cfg r ((out.scheduledSpecDecodeTokens.get? r).getD []).length
    (res.sampledTokenIds r).length isStale
  let current ← getRequest r
  onlyIf (current.mmFeatures ≠ []) (freeEncoderInputs cfg current)
  let stopped ← consumeOutput cfg res r isStale
  let stopped ← rejectGrammar res r stopped
  onlyIf (stopped = true) (concludeRequest cfg res r)
  return if stopped = false then stoppedReqs
    else if request.status = .running then
      { stoppedReqs with stoppedRunningReqs := stoppedReqs.stoppedRunningReqs ++ [r] }
    else
      { stoppedReqs with stoppedPreemptedReqs := stoppedReqs.stoppedPreemptedReqs ++ [r] }

def processRequest (out : SchedulerOutput n) (res : RunnerOutput n)
    (failedKvLoadReqIds : List RequestId) (r : RequestId) (numTokensScheduled : ℤ)
    (stoppedReqs : StoppedReqs) : SchedM n m StoppedReqs := do
  check (0 < numTokensScheduled) (.assertionError "num_tokens_scheduled > 0")
  let isStale ← drainInFlight r numTokensScheduled
  let s ← get
  match s.requests.get? r with
  | none => return stoppedReqs
  | some request =>
    if r ∈ failedKvLoadReqIds ∨ isFinished request.status = true ∨
        (isStale = true ∧ request.dropStaleOutput = true) then
      return stoppedReqs
    else
      applyOutput cfg out res request isStale stoppedReqs

def processRequests (out : SchedulerOutput n) (res : RunnerOutput n)
    (failedKvLoadReqIds : List RequestId) :
    List (RequestId × ℤ) → StoppedReqs → SchedM n m StoppedReqs
  | [], stoppedReqs => return stoppedReqs
  | (r, numTokensScheduled) :: entries, stoppedReqs => do
    let stoppedReqs ← processRequest cfg out res failedKvLoadReqIds r numTokensScheduled stoppedReqs
    processRequests out res failedKvLoadReqIds entries stoppedReqs

/-! ### Failed loads and finished transfers -/

def soleGroup : Option (Fin m) := if h : m = 1 then some ⟨0, by omega⟩ else none

def unpackError (numGroups : ℕ) : Failure :=
  -- The unpacking of the block tables of a request fails with several groups.
  .valueError (if numGroups = 0 then "not enough values to unpack (expected 1, got 0)"
    else "too many values to unpack (expected 1)")

def scanned (queue : List RequestId) : List CacheRequest :=
  queue.filterMap fun r => (s.requests.get? r).map SchedRequest.toCacheRequest

/-- A request whose computed tokens the scan has cut gets the new count. -/
def writeBack (requests : List CacheRequest) : SchedulerState n m :=
  requests.foldl (fun s r => s.modifyRequest r.requestId fun q =>
    if q.numComputedTokens.toNat = r.numComputedTokens then q
    else { q with numComputedTokens := r.numComputedTokens }) s

def handleLoadFailure (out : SchedulerOutput n) (invalidBlockIds : List (Fin n)) :
    SchedM n m (List RequestId) := do
  let s ← get
  let running := scanned s s.running
  let skippedWaiting := scanned s (iterRequests cfg.policy s.lt s.skippedWaiting)
  -- tables are unpacked request by request, so a scan of none succeeds with any groups
  if running = [] ∧ ∀ r ∈ skippedWaiting, r.status ≠ .waitingForRemoteKvs then
    return []
  else
    let i ← expect soleGroup (unpackError m)
    let failure : LoadFailure n :=
      { blockSize := cfg.cache.schedulerBlockSize
        invalidBlockIds
        numScheduledTokens := fun r => ((out.numScheduledTokens.get? r).getD 0).toNat
        reqToBlocks := (s.cache.managers i).reqToBlocks }
    match handleInvalidBlocks failure cfg.recomputeKvLoadFailures
        { pool := s.cache.pool, running, skippedWaiting, failedRecvingKvReqIds := [] } with
    | .error e _ => throw e
    | .ok failed t =>
      let s := writeBack (writeBack s t.skippedWaiting) t.running
      set { s with
        cache := { s.cache with pool := t.pool }
        failedRecvingKvReqIds := s.failedRecvingKvReqIds ∪ t.failedRecvingKvReqIds.toFinset }
      return failed

def finishRecving : SchedM n m PUnit := do
  let s ← get
  let request ← expect (s.requests.get? r) (.assertionError "req_id in self.requests")
  if request.status = .waitingForRemoteKvs then
    set { s with finishedRecvingKvReqIds := insert r s.finishedRecvingKvReqIds }
  else
    check (isFinished request.status = true)
      (.assertionError "RequestStatus.is_finished(req.status)")
    freeBlocks cfg r

def updateFromKvXferFinished (res : RunnerOutput n) : SchedM n m PUnit := do
  forM res.finishedRecving (finishRecving cfg)
  forM res.finishedSending fun r => do
    let s ← get
    check (r ∈ s.requests.keys) (.assertionError "req_id in self.requests")
    freeBlocks cfg r

/-! ### Whole calls -/

def completeStep (out : SchedulerOutput n) : SchedM n m PUnit :=
  onlyIf (cfg.deferBlockFree = true ∧ 0 < out.totalNumScheduledTokens) do
    modify fun s => { s with processedStepSeq := s.processedStepSeq + 1 }
    drainDeferredFrees

def removeStopped (stoppedReqs : StoppedReqs) (s : SchedulerState n m) : SchedulerState n m :=
  let preempted := stoppedReqs.stoppedPreemptedReqs
  { s with
    running := removeAll s.running stoppedReqs.stoppedRunningReqs
    waiting := if preempted = [] then s.waiting
      else removeRequests cfg.policy s.lt s.waiting fun r => r ∈ preempted
    skippedWaiting := if preempted = [] then s.skippedWaiting
      else removeRequests cfg.policy s.lt s.skippedWaiting fun r => r ∈ preempted }

def findFailedLoads (out : SchedulerOutput n) (res : RunnerOutput n) :
    SchedM n m (List RequestId) :=
  if res.invalidBlockIds = [] then return [] else handleLoadFailure cfg out res.invalidBlockIds

def finishErrors (res : RunnerOutput n) (failedKvLoadReqIds : List RequestId) :
    SchedM n m PUnit := do
  let s ← get
  let errorReqIds := s.grammarCompileErrorReqs.sort ++
    if cfg.recomputeKvLoadFailures then [] else failedKvLoadReqIds
  set { s with grammarCompileErrorReqs := ∅ }
  onlyIf (errorReqIds ≠ [])
    (finishRequests cfg res.delaysFree errorReqIds .finishedError)

def updateFromOutput (out : SchedulerOutput n) (res : RunnerOutput n) : SchedM n m PUnit := do
  completeStep cfg out
  let failedKvLoadReqIds ← findFailedLoads cfg out res
  let stoppedReqs ← processRequests cfg out res failedKvLoadReqIds
    out.numScheduledTokens.entries ⟨[], []⟩
  modify (removeStopped cfg stoppedReqs)
  finishErrors cfg res failedKvLoadReqIds
  updateFromKvXferFinished cfg res

def updateDraftTokenIds (drafts : List (RequestId × List ℤ)) : SchedM n m PUnit :=
  forM drafts fun (r, specTokenIds) => modify fun s =>
    s.modifyRequest r fun request =>
      if isFinished request.status then request
      else if request.isPrefillChunk then { request with specTokenIds := [] }
      else { request with specTokenIds }

def preemptAll : ℕ → SchedM n m PUnit
  -- Preempt the running requests, the last one first.
  | 0 => return ⟨⟩
  | fuel + 1 => do
    let s ← get
    match s.running.getLast? with
    | none => return ⟨⟩
    | some r =>
      set { s with running := s.running.dropLast }
      preemptRequest cfg r true
      preemptAll fuel

def resetPrefixCache (resetRunningRequests : Bool) : SchedM n m Bool := do
  let s ← get
  onlyIf (resetRunningRequests = true) (preemptAll cfg s.running.length)
  let successful ← onCache (zoom (fun s => s.pool) (fun s pool => { s with pool })
    Pool.resetPrefixCache)
  check (resetRunningRequests = false ∨ successful = true)
    (.runtimeError ("Failed to reset KV cache even when all the running requests are " ++
      "preempted and moved to the waiting queue. This is likely due to " ++
      "the presence of running requests waiting for remote KV transfer, " ++
      "which is not supported yet."))
  return successful

def setPauseState (pauseState : PauseState) : SchedM n m PUnit :=
  modify fun s => { s with pauseState }

def resetEncoderCache : SchedM n m PUnit := onEncoder EncoderManager.reset

end Vllm.Scheduler
