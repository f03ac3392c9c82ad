import Mathlib.Data.Prod.Lex
import Vllm.Scheduler

/-!
One call of `schedule`. Running requests are scheduled first, in order, and a
request that gets no slots preempts others; then waiting requests are admitted
while the budgets last. What the prefix-cache lookup, the connectors and the
grammar compiler answer during a call is part of its environment. The block ids
sent to the workers and the common prefix are left out, they are read off the
block tables.
-/
namespace Vllm.Scheduler

open Outcome CacheManagers KVCacheManager EncoderCache RequestQueue

variable {n m : ℕ}

structure LocalHit (n m : ℕ) where
  newComputedBlocks : Option (Fin m → List (Fin n))
  numNewLocalComputedTokens : ℕ
  sharedPrefixBoundary : ℕ
  hitDiverged : Bool

inductive GrammarState where
  | compiling
  | failed
  | ready
deriving DecidableEq, Repr

/-- What others answer during a call. The connector reports the tokens it can
load and whether it loads them asynchronously, or that it does not know yet. -/
structure ScheduleEnv (n m : ℕ) where
  throttlePrefills : Bool
  localHit : RequestId → LocalHit n m
  reconciledHit : RequestId → LocalHit n m
  connectorMatch : RequestId → Option (ℕ × Bool)
  ecReady : RequestId → Bool
  grammar : RequestId → GrammarState
  hasCacheItem : MmHash → Bool

structure Locals where
  scheduledNewReqs : List RequestId
  scheduledResumedReqs : List RequestId
  scheduledRunningReqs : List RequestId
  preemptedReqs : List RequestId
  numScheduledTokens : OrderedDict RequestId ℤ
  scheduledSpecDecodeTokens : OrderedDict RequestId (List ℤ)
  scheduledEncoderInputs : OrderedDict RequestId (List ℕ)
  tokenBudget : ℤ
  inputBudget : ℤ
  encoderComputeBudget : ℤ
  prefillScheduled : Bool
  hasSyncKvLoads : Bool
  reqIndex : ℕ
  scheduledLoras : Finset ℕ
  stepSkippedWaiting : List RequestId

structure Pass (n m : ℕ) where
  sched : SchedulerState n m
  locals : Locals

abbrev PassM (n m : ℕ) := EStateM Failure (Pass n m)

def onSched {α : Type} (op : SchedM n m α) : PassM n m α :=
  zoom (fun p => p.sched) (fun p sched => { p with sched }) op

def modifySched (f : SchedulerState n m → SchedulerState n m) : PassM n m PUnit :=
  modify fun p => { p with sched := f p.sched }

def modifyLocals (f : Locals → Locals) : PassM n m PUnit :=
  modify fun p => { p with locals := f p.locals }

inductive LoopControl where
  | next
  | stop
deriving DecidableEq, Repr

variable (cfg : SchedConfig m) (env : ScheduleEnv n m)

/-! ### Encoder inputs -/

def encoderConfig : EncoderConfig where
  isEncoderDecoder := cfg.isEncoderDecoder
  disableChunkedMmInput := cfg.disableChunkedMmInput
  hasCacheItem := fun mmHash => cfg.hasEcConnector && env.hasCacheItem mmHash

variable (request : SchedRequest) (r : SchedRequest)

def planEncoderInputs (numComputedTokens numNewTokens : ℤ) : PassM n m EncoderPass := do
  let p ← get
  let chunk : EncoderChunk :=
    { request := request.encoderRequest
      numComputedTokens
      numNewTokens
      shiftComputedTokens := cfg.numPrefillLookahead }
  if request.mmFeatures = [] then
    return .start chunk p.locals.encoderComputeBudget
  else
    onSched (onEncoder (tryScheduleEncoderInputs (encoderConfig cfg env) chunk
      p.locals.encoderComputeBudget))

def commitEncoderInputs (pass : EncoderPass) : PassM n m PUnit := do
  onlyIf (pass.encoderInputsToSchedule ≠ []) do
    modifyLocals fun l => { l with
      scheduledEncoderInputs :=
        l.scheduledEncoderInputs.set request.requestId pass.encoderInputsToSchedule }
    forM pass.encoderInputsToSchedule fun i =>
      onSched (onEncoder (EncoderManager.allocate request.encoderRequest i))
    modifyLocals fun l => { l with encoderComputeBudget := pass.encoderComputeBudget }
  forM pass.externalLoadEncoderInput fun i =>
    onSched (onEncoder (EncoderManager.allocate request.encoderRequest i))

def sumEncoderEmbeds {σ : Type} (request : EncoderRequest) : List ℕ → EStateM Failure σ ℕ
  | [] => return 0
  | i :: inputs => do
    let numEmbeds ← request.getNumEncoderEmbeds i
    let rest ← sumEncoderEmbeds request inputs
    return numEmbeds + rest

/-! ### Running requests -/

def passesOver (deferPrefills : Bool) (currentStep : ℕ) (r : SchedRequest) : Bool :=
  -- Whether a running request is passed over in this step: its last output is on its way, its
  -- next decode step has to wait, or prefills are deferred.
  (0 < r.numOutputPlaceholders ∧
    (r.numPromptTokens : ℤ) + r.maxTokens ≤ r.numComputedTokens + 2 - r.numOutputPlaceholders) ∨
  currentStep < r.nextDecodeEligibleStep ∨
  (deferPrefills = true ∧ r.isPrefillChunk = true)

def runningTokens (l : Locals) : ℤ :=
  let numNewTokens := r.numTokensWithSpec + r.numOutputPlaceholders - r.numComputedTokens
  let numNewTokens :=
    if 0 < cfg.longPrefillTokenThreshold ∧ (cfg.longPrefillTokenThreshold : ℤ) < numNewTokens then
      (cfg.longPrefillTokenThreshold : ℤ)
    else
      numNewTokens
  let numNewTokens := min numNewTokens (min l.tokenBudget (l.inputBudget - cfg.draftSlots))
  let numNewTokens :=
    min numNewTokens (cfg.maxModelLen - r.numComputedTokens - cfg.numSampledTokensPerStep)
  if cfg.needMambaBlockAlignedSplit then cfg.alignedSplit r numNewTokens 0 0 else numNewTokens

/-- `(priority, arrival_time)`, the first one compared first. -/
def VictimKey : Type := ℤ ×ₗ ℕ

instance : LinearOrder VictimKey := Prod.Lex.instLinearOrder ℤ ℕ

def victimKey (s : SchedulerState n m) (r : RequestId) : VictimKey :=
  match s.requests.get? r with
  | none => toLex ((0, 0) : ℤ × ℕ)
  | some request => toLex ((request.priority, request.arrivalTime) : ℤ × ℕ)

def unschedule (victim : RequestId) : PassM n m PUnit := do
  -- A victim that was scheduled in this call is not scheduled any more.
  let p ← get
  let restored ← expect (p.locals.numScheduledTokens.get? victim) (.keyError (toString victim))
  modifyLocals fun l => { l with
    scheduledRunningReqs := l.scheduledRunningReqs.erase victim
    numScheduledTokens := l.numScheduledTokens.erase victim
    tokenBudget := l.tokenBudget + restored
    inputBudget := l.inputBudget + (restored + cfg.draftSlots)
    scheduledSpecDecodeTokens := l.scheduledSpecDecodeTokens.erase victim
    scheduledEncoderInputs := l.scheduledEncoderInputs.erase victim }
  let request ← onSched (getRequest victim)
  let numEmbedsToRestore ← sumEncoderEmbeds request.encoderRequest
    ((p.locals.scheduledEncoderInputs.get? victim).getD [])
  modifyLocals fun l => { l with
    encoderComputeBudget := l.encoderComputeBudget + numEmbedsToRestore }

def takeVictim : PassM n m RequestId := do
  let p ← get
  match cfg.policy with
  | .priority =>
    let victim ← expect (p.sched.running.argmax (victimKey p.sched))
      (.valueError "max() arg is an empty sequence")
    let victimIndex := p.sched.running.idxOf victim
    modifySched fun s => { s with running := s.running.eraseIdx victimIndex }
    modifyLocals fun l => { l with
      reqIndex := if victimIndex < l.reqIndex then l.reqIndex - 1 else l.reqIndex }
    onlyIf (victim ∈ p.locals.scheduledRunningReqs) (unschedule cfg victim)
    return victim
  | .fcfs =>
    let victim ← expect p.sched.running.getLast? (.indexError "pop from empty list")
    modifySched fun s => { s with running := s.running.dropLast }
    return victim

def preemptVictim : PassM n m RequestId := do
  let victim ← takeVictim cfg
  onSched (preemptRequest cfg victim cfg.requiresKvDelivery)
  modifyLocals fun l => { l with preemptedReqs := l.preemptedReqs ++ [victim] }
  return victim

def runningCall (numNewTokens : ℤ) : SlotCall n m where
  request := request.toCacheRequest
  numNewTokens := numNewTokens.toNat
  numNewComputedTokens := 0
  newComputedBlocks := none
  numLookaheadTokens := cfg.numLookaheadTokens
  numExternalComputedTokens := 0
  delayCacheBlocks := false
  fullSequenceMustFit := false
  reservedBlocks := 0
  hasScheduledReqs := false

/-- Slots for a running request, preempting others until there are enough or
the request itself is the victim. One request leaves `running` each time. -/
def allocateRunning (request : SchedRequest) (numNewTokens : ℤ) : ℕ → PassM n m Bool
  | 0 => return false
  | fuel + 1 => do
    let taken ← onSched (onCache (allocateSlots cfg.cache (runningCall cfg request numNewTokens)))
    if taken then
      return true
    else
      let victim ← preemptVictim cfg
      if victim = request.requestId then return false
      else allocateRunning request numNewTokens fuel

def scheduledSpecTokens (numNewTokens : ℤ) : List ℤ :=
  r.specTokenIds.take
    (numNewTokens + r.numComputedTokens - r.numTokens - r.numOutputPlaceholders).toNat

def recordRunning (numNewTokens : ℤ) (pass : EncoderPass) : PassM n m PUnit := do
  modifyLocals fun l => { l with
    scheduledRunningReqs := l.scheduledRunningReqs ++ [request.requestId]
    prefillScheduled := l.prefillScheduled || request.isPrefillChunk
    numScheduledTokens := l.numScheduledTokens.set request.requestId numNewTokens
    tokenBudget := l.tokenBudget - numNewTokens
    inputBudget := l.inputBudget - (numNewTokens + cfg.draftSlots)
    reqIndex := l.reqIndex + 1
    scheduledSpecDecodeTokens :=
      if scheduledSpecTokens request numNewTokens = [] then l.scheduledSpecDecodeTokens
      else l.scheduledSpecDecodeTokens.set request.requestId
        (scheduledSpecTokens request numNewTokens) }
  onSched (modifyRequest request.requestId fun r => { r with specTokenIds := [] })
  commitEncoderInputs request pass

def nextRunning : PassM n m LoopControl := do
  modifyLocals fun l => { l with reqIndex := l.reqIndex + 1 }
  return .next

def runningStep (deferPrefills : Bool) (r : RequestId) : PassM n m LoopControl := do
  let p ← get
  if p.locals.inputBudget ≤ cfg.draftSlots then
    return .stop
  else
    let request ← onSched (getRequest r)
    if passesOver deferPrefills p.sched.currentStep request then
      nextRunning
    else
      let pass ← planEncoderInputs cfg env request request.numComputedTokens
        (runningTokens cfg request p.locals)
      let numNewTokens :=
        cfg.reservePrefillLookahead request request.numComputedTokens pass.numNewTokens
      if numNewTokens = 0 then
        nextRunning
      else
        let taken ← allocateRunning cfg request numNewTokens (p.sched.running.length + 1)
        if taken then
          recordRunning cfg request numNewTokens pass
          return .next
        else
          return .stop

/-- The loop over the running requests. Each pass brings the index one nearer
to the end of the list, so its length is fuel enough. -/
def runningLoop (deferPrefills : Bool) : ℕ → PassM n m PUnit
  | 0 => return ⟨⟩
  | fuel + 1 => do
    let p ← get
    match p.sched.running[p.locals.reqIndex]? with
    | none => return ⟨⟩
    | some r =>
      if 0 < p.locals.tokenBudget then
        match ← runningStep cfg env deferPrefills r with
        | .next => runningLoop deferPrefills fuel
        | .stop => return ⟨⟩
      else
        return ⟨⟩

/-! ### Waiting requests -/

inductive QueueName where
  | waiting
  | skippedWaiting
deriving DecidableEq, Repr

namespace QueueName

def requests (q : QueueName) (s : SchedulerState n m) : List RequestId :=
  match q with
  | .waiting => s.waiting
  | .skippedWaiting => s.skippedWaiting

def put (q : QueueName) (s : SchedulerState n m) (requests : List RequestId) : SchedulerState n m :=
  match q with
  | .waiting => { s with waiting := requests }
  | .skippedWaiting => { s with skippedWaiting := requests }

end QueueName

variable (l : Locals) (s : SchedulerState n m) (request : SchedRequest) (r : RequestId)

def selectWaitingQueueForScheduling : Option QueueName :=
  match cfg.policy with
  | .fcfs =>
    if s.skippedWaiting ≠ [] then some .skippedWaiting
    else if s.waiting ≠ [] then some .waiting
    else none
  | .priority =>
    match peekRequest s.waiting, peekRequest s.skippedWaiting with
    | some waitingReq, some skippedReq =>
      if s.lt waitingReq skippedReq then some .waiting else some .skippedWaiting
    | some _, none => some .waiting
    | none, some _ => some .skippedWaiting
    | none, none => none

def popQueue (q : QueueName) : PassM n m RequestId := do
  let p ← get
  let (request, rest) ← expect (popRequest cfg.policy p.sched.lt (q.requests p.sched))
    (.indexError "pop from an empty deque")
  modifySched fun s => q.put s rest
  return request

def setAside (q : QueueName) (r : RequestId) : PassM n m LoopControl := do
  let _ ← popQueue cfg q
  let p ← get
  modifyLocals fun l => { l with
    stepSkippedWaiting := prependRequest cfg.policy p.sched.lt l.stepSkippedWaiting r }
  return .next

def cacheReceived (failed : Bool) : SchedM n m PUnit :=
  -- The received blocks are cached. A failed load without a valid token gives its blocks up.
  if failed = true ∧ request.numComputedTokens = 0 then
    onCache (Coordinator.free cfg.cache request.requestId)
  else
    onCache (KVCacheManager.cacheBlocks cfg.cache request.toCacheRequest
      request.numComputedTokens.toNat)

def updateWaitingForRemoteKv : SchedM n m PUnit := do
  check (cfg.hasConnector = true) (.assertionError "self.connector is not None")
  let request ← getRequest r
  let s ← get
  let failed := decide (r ∈ s.failedRecvingKvReqIds)
  cacheReceived cfg request failed
  -- the last token of a full hit is computed again, to sample the next one
  onlyIf (failed = false ∧ request.numComputedTokens = request.numTokens)
    (modifyRequest r fun q => { q with numComputedTokens := q.numTokens - 1 })
  modify fun s => { s with
    failedRecvingKvReqIds := s.failedRecvingKvReqIds.erase r
    finishedRecvingKvReqIds := s.finishedRecvingKvReqIds.erase r }

def tryPromoteBlockedWaitingRequest : SchedM n m Bool := do
  let request ← getRequest r
  let s ← get
  match request.status with
  | .waitingForRemoteKvs =>
    if r ∉ s.finishedRecvingKvReqIds then
      return false
    else
      updateWaitingForRemoteKv cfg r
      modifyRequest r fun q =>
        { q with status := if q.numPreemptions ≠ 0 then .preempted else .waiting }
      return true
  | .waitingForStructuredOutputGrammar =>
    match env.grammar r with
    | .compiling => return false
    | .failed =>
      set { s with grammarCompileErrorReqs := insert r s.grammarCompileErrorReqs }
      return false
    | .ready =>
      modifyRequest r fun q => { q with status := .waiting }
      return true
  | .waitingForStreamingReq =>
    check (request.streamingQueue.getD [] = []) (.assertionError "not request.streaming_queue")
    return false
  | _ => throw (.assertionError "Unexpected blocked waiting status in promotion")

/-- `truncate_computed_blocks`: a lookup result cut at an aligned endpoint. -/
def truncateComputedBlocks (blocks : Option (Fin m → List (Fin n))) (numComputedTokens : ℕ) :
    PassM n m (Option (Fin m → List (Fin n))) := do
  let blocks := blocks.getD fun _ => []
  forM (List.finRange m) fun i =>
    if (cfg.cache.groups i).prefixCacheable = false then
      check (blocks i = []) (.assertionError "not group_blocks")
    else do
      check (numComputedTokens % (cfg.cache.groups i).blockSize = 0)
        (.assertionError "num_computed_tokens % manager.block_size == 0")
      match (cfg.cache.groups i).kind with
      | .mamba _ => return ⟨⟩
      | _ =>
        check (numComputedTokens / (cfg.cache.groups i).blockSize ≤ (blocks i).length)
          (.assertionError "num_blocks <= len(group_blocks)")
  let truncated : Fin m → List (Fin n) := fun i =>
    (blocks i).take (numComputedTokens / (cfg.cache.groups i).blockSize)
  return if ∀ i, truncated i = [] then none else some truncated

/-- What is already computed of a request that is about to be admitted. -/
structure Admission (n m : ℕ) where
  newComputedBlocks : Option (Fin m → List (Fin n))
  numNewLocalComputedTokens : ℕ
  numExternalComputedTokens : ℕ
  numComputedTokens : ℤ
  loadKvAsync : Bool

/-- The local hit, weighed against what the connector can load. `none` when
the connector does not know yet. -/
def connectorHit : PassM n m (Option (LocalHit n m × ℕ × Bool)) := do
  let hit := env.localHit r
  let partialTail := hit.numNewLocalComputedTokens % cfg.cache.schedulerBlockSize
  let blockAlignedLocal := hit.numNewLocalComputedTokens - partialTail
  match env.connectorMatch r with
  | none => return none
  | some (extTokens, loadKvAsync) =>
    if partialTail ≠ 0 ∧ partialTail < extTokens then
      let blocks ← truncateComputedBlocks cfg hit.newComputedBlocks blockAlignedLocal
      return some ({ hit with
        newComputedBlocks := blocks
        numNewLocalComputedTokens := blockAlignedLocal }, extTokens, loadKvAsync)
    else
      let numExternalComputedTokens := if partialTail ≠ 0 then 0 else extTokens
      let loadKvAsync := if partialTail ≠ 0 then false else loadKvAsync
      return some (if hit.hitDiverged ∧ numExternalComputedTokens = 0 then env.reconciledHit r
        else hit, numExternalComputedTokens, loadKvAsync)

def lookupComputed : PassM n m (Option (Admission n m)) := do
  if request.numComputedTokens = 0 then
    let found ← (if cfg.hasConnector then connectorHit cfg env request.requestId
      else pure (some (env.localHit request.requestId, 0, false)))
    -- the boundary of the first lookup is kept when the connector cannot tell
    let boundary := ((found.map fun f => f.1).getD
      (env.localHit request.requestId)).sharedPrefixBoundary
    onSched (modifyRequest request.requestId fun q =>
      { q with sharedPrefixBoundary := boundary })
    match found with
    | none => return none
    | some (hit, numExternalComputedTokens, loadKvAsync) =>
      let numComputedTokens := hit.numNewLocalComputedTokens + numExternalComputedTokens
      check (numComputedTokens ≤ request.numTokens)
        (.assertionError "num_computed_tokens <= request.num_tokens")
      if cfg.hasEcConnector ∧ request.mmFeatures ≠ [] ∧ env.ecReady request.requestId = false then
        return none
      else
        return some
          { newComputedBlocks := hit.newComputedBlocks
            numNewLocalComputedTokens := hit.numNewLocalComputedTokens
            numExternalComputedTokens
            numComputedTokens
            loadKvAsync }
  else
    return some
      { newComputedBlocks := none
        numNewLocalComputedTokens := 0
        numExternalComputedTokens := 0
        numComputedTokens := request.numComputedTokens
        loadKvAsync := false }

structure WaitingPlan where
  numNewTokens : ℤ
  padSpecDecode : Bool
  pass : EncoderPass

/-- A decode request that joins a uniform batch is padded to its size, if the
sampled tokens still fit. -/
def padsSpecDecode (numComputedTokens numNewTokens : ℤ) : Bool :=
  0 < cfg.numSpecTokens ∧ cfg.dynamicSdLookup.isNone ∧ 0 < cfg.numSampledTokensPerStep ∧
    numNewTokens = 1 ∧ l.scheduledRunningReqs ≠ [] ∧ l.prefillScheduled = false ∧
    numComputedTokens + (1 + cfg.numSpecTokens) + cfg.numSampledTokensPerStep ≤ cfg.maxModelLen

def splitWaiting (adm : Admission n m) (numNewTokens : ℤ) (padSpecDecode : Bool) : ℤ × Bool :=
  -- The Mamba split of a chunk; padding that it would clip is dropped.
  if cfg.needMambaBlockAlignedSplit then
    let split := cfg.alignedSplit request numNewTokens adm.numNewLocalComputedTokens
      adm.numExternalComputedTokens
    if split ≠ 0 ∧ padSpecDecode = true ∧ split ≠ 1 + cfg.numSpecTokens then (1, false)
    else (split, padSpecDecode)
  else
    (numNewTokens, padSpecDecode)

/-- The encoder inputs and the reserve of a chunk, or `none` when nothing is
left of it. -/
def finishPlan (numComputedTokens numNewTokens : ℤ) (padSpecDecode : Bool) :
    PassM n m (Option WaitingPlan) := do
  let pass ← planEncoderInputs cfg env request numComputedTokens numNewTokens
  let numNewTokens := cfg.reservePrefillLookahead request numComputedTokens pass.numNewTokens
  return if numNewTokens = 0 then none else some { numNewTokens, padSpecDecode, pass }

/-- The tokens to schedule for a waiting request that computes locally, or
`none` when the loop ends here. -/
def planLocal (adm : Admission n m) : PassM n m (Option WaitingPlan) := do
  let p ← get
  let requestTokenBudget := min p.locals.tokenBudget (p.locals.inputBudget - cfg.draftSlots)
  let wanted := request.numTokens - adm.numComputedTokens
  let pad := padsSpecDecode cfg p.locals adm.numComputedTokens wanted
  let numNewTokens : ℤ := if pad then 1 + cfg.numSpecTokens else wanted
  if pad = true ∧ requestTokenBudget < numNewTokens then
    return none
  else
    let threshold := cfg.longPrefillTokenThreshold
    let numNewTokens := if 0 < threshold ∧ threshold < numNewTokens then (threshold : ℤ)
      else numNewTokens
    if cfg.enableChunkedPrefill = false ∧ requestTokenBudget < numNewTokens then
      return none
    else
      let numNewTokens := min numNewTokens requestTokenBudget
      check (0 < numNewTokens) (.assertionError "num_new_tokens > 0")
      let (numNewTokens, pad) := splitWaiting cfg request adm numNewTokens pad
      if cfg.needMambaBlockAlignedSplit = true ∧ numNewTokens = 0 then
        return none
      else
        finishPlan cfg env request adm.numComputedTokens numNewTokens pad

def planWaiting (deferPrefills : Bool) (request : SchedRequest) (adm : Admission n m) :
    PassM n m (Option WaitingPlan) := do
  let p ← get
  if adm.loadKvAsync then
    check (0 < adm.numExternalComputedTokens) (.assertionError "num_external_computed_tokens > 0")
    let chunk : EncoderChunk :=
      { request := request.encoderRequest
        numComputedTokens := adm.numComputedTokens
        numNewTokens := 0
        shiftComputedTokens := cfg.numPrefillLookahead }
    return some
      { numNewTokens := 0
        padSpecDecode := false
        pass := .start chunk p.locals.encoderComputeBudget }
  else if deferPrefills = true ∧ adm.numComputedTokens < request.numTokens - 1 then
    return none
  else
    planLocal cfg env request adm

def requestRemainingBlocks : SchedM n m ℤ := do
  let request ← getRequest r
  let fullNumTokens := min request.numTokens cfg.maxModelLen
  onCache (Coordinator.getNumBlocksToAllocate cfg.cache r fullNumTokens (fun _ => [])
    request.numComputedTokens.toNat request.numComputedTokens.toNat fullNumTokens true)

def sumRemainingBlocks : List RequestId → SchedM n m ℤ
  | [] => return 0
  | r :: rs => do
    let k ← requestRemainingBlocks cfg r
    let rest ← sumRemainingBlocks rs
    return k + rest

def inflightPrefillReservedBlocks : SchedM n m ℤ := do
  let s ← get
  sumRemainingBlocks cfg s.inflightPrefills.sort

def waitingCall (adm : Admission n m) (numNewTokens : ℤ) (reservedBlocks : ℤ)
    (hasScheduledReqs : Bool) : SlotCall n m where
  request := request.toCacheRequest
  numNewTokens := numNewTokens.toNat
  numNewComputedTokens := adm.numNewLocalComputedTokens
  newComputedBlocks := adm.newComputedBlocks
  numLookaheadTokens := if adm.loadKvAsync then 0 else cfg.numLookaheadTokens
  numExternalComputedTokens := adm.numExternalComputedTokens
  delayCacheBlocks := adm.loadKvAsync
  fullSequenceMustFit := cfg.schedulerReserveFullIsl
  reservedBlocks := reservedBlocks.toNat
  hasScheduledReqs := hasScheduledReqs

def allocateWaiting (adm : Admission n m) (numNewTokens : ℤ) : PassM n m Bool := do
  let reservedBlocks ← (if adm.loadKvAsync then onSched (inflightPrefillReservedBlocks cfg)
    else pure 0)
  let request ← onSched (getRequest r)
  let p ← get
  onSched (onCache (allocateSlots cfg.cache
    (waitingCall cfg request adm numNewTokens reservedBlocks (p.sched.running ≠ []))))

def awaitRemoteKvs (q : QueueName) (r : RequestId) (adm : Admission n m) : PassM n m PUnit := do
  onSched (modifyRequest r fun request => { request with
    status := .waitingForRemoteKvs
    numComputedTokens := adm.numComputedTokens })
  let _ ← setAside cfg q r
  modifySched fun s => { s with inflightPrefills := insert r s.inflightPrefills }

def recordStart : PassM n m PUnit :=
  match request.status with
  | .waiting => modifyLocals fun l => { l with
      scheduledNewReqs := l.scheduledNewReqs ++ [request.requestId] }
  | .preempted => modifyLocals fun l => { l with
      scheduledResumedReqs := l.scheduledResumedReqs ++ [request.requestId] }
  | _ => throw (.runtimeError "Invalid request status")

def finishStart (adm : Admission n m) (plan : WaitingPlan) : PassM n m PUnit := do
  let r := request.requestId
  onlyIf (plan.padSpecDecode = true) do
    check (plan.numNewTokens = 1 + cfg.numSpecTokens)
      (.assertionError "num_new_tokens == 1 + self.num_spec_tokens")
    modifyLocals fun l => { l with
      scheduledSpecDecodeTokens :=
        l.scheduledSpecDecodeTokens.set r (List.replicate cfg.numSpecTokens (-1)) }
  onlyIf (adm.numComputedTokens + plan.numNewTokens < request.numTokens)
    (modifySched fun s => { s with inflightPrefills := insert r s.inflightPrefills })
  commitEncoderInputs request plan.pass

def startRunning (q : QueueName) (request : SchedRequest) (adm : Admission n m)
    (plan : WaitingPlan) : PassM n m PUnit := do
  let r := request.requestId
  let _ ← popQueue cfg q
  modifySched fun s => { s with running := s.running ++ [r] }
  recordStart request
  modifyLocals fun l => { l with
    hasSyncKvLoads := l.hasSyncKvLoads || decide (0 < adm.numExternalComputedTokens)
    scheduledLoras := match cfg.maxLoras, request.loraRequest with
      | some _, some lora => insert lora.adapterId l.scheduledLoras
      | _, _ => l.scheduledLoras
    numScheduledTokens := l.numScheduledTokens.set r plan.numNewTokens
    tokenBudget := l.tokenBudget - plan.numNewTokens
    inputBudget := l.inputBudget - (plan.numNewTokens + cfg.draftSlots) }
  onSched (modifyRequest r fun request => { request with
    status := .running
    numComputedTokens := adm.numComputedTokens })
  finishStart cfg request adm plan

def admitRequest (q : QueueName) (request : SchedRequest) (adm : Admission n m)
    (plan : WaitingPlan) : PassM n m LoopControl := do
  let taken ← allocateWaiting cfg request.requestId adm plan.numNewTokens
  if taken = false then
    onlyIf (request.mmFeatures ≠ [])
      (onSched (onEncoder (EncoderManager.free request.encoderRequest)))
    return .stop
  else if adm.loadKvAsync then
    awaitRemoteKvs cfg q request.requestId adm
    return .next
  else
    startRunning cfg q request adm plan
    return .next

def exceedsLoras : Bool :=
  match cfg.maxLoras, request.loraRequest with
  | some maxLoras, some lora =>
    l.scheduledLoras.card = maxLoras ∧ lora.adapterId ∉ l.scheduledLoras
  | _, _ => false

/-- The waiting loop's body from the checks of the request on. -/
def considerRequest (deferPrefills : Bool) (q : QueueName) (r : RequestId) :
    PassM n m LoopControl := do
  let request ← onSched (getRequest r)
  let p ← get
  if 0 < request.numStaleOutputTokens ∧ request.dropStaleOutput = false then
    setAside cfg q r
  else if exceedsLoras cfg p.locals request then
    setAside cfg q r
  else
    match ← lookupComputed cfg env request with
    | none => setAside cfg q r
    | some adm =>
      match ← planWaiting cfg env deferPrefills request adm with
      | none => return .stop
      | some plan => admitRequest cfg q request adm plan

def waitingStep (deferPrefills : Bool) : PassM n m LoopControl := do
  let p ← get
  if p.locals.inputBudget ≤ cfg.draftSlots then
    return .stop
  else if (cfg.maxNumRunningReqs : ℤ) ≤
      p.sched.running.length + p.sched.numWaitingForStreamingInput then
    return .stop
  else
    let q ← expect (selectWaitingQueueForScheduling cfg p.sched)
      (.assertionError "request_queue is not None")
    let r ← expect (peekRequest (q.requests p.sched)) (.indexError "peek from an empty queue")
    let request ← onSched (getRequest r)
    let ready ← (if isBlockedWaitingStatus request.status then
      onSched (tryPromoteBlockedWaitingRequest cfg env r) else pure true)
    if ready then considerRequest cfg env deferPrefills q r else setAside cfg q r

/-- The loop over the waiting requests. Each pass takes a request out of the
two queues, so their length is fuel enough. -/
def waitingLoop (deferPrefills : Bool) : ℕ → PassM n m PUnit
  | 0 => return ⟨⟩
  | fuel + 1 => do
    let p ← get
    if (p.sched.waiting ≠ [] ∨ p.sched.skippedWaiting ≠ []) ∧ 0 < p.locals.tokenBudget then
      match ← waitingStep cfg env deferPrefills with
      | .next => waitingLoop deferPrefills fuel
      | .stop => return ⟨⟩
    else
      return ⟨⟩

/-! ### A call -/

def totalNumScheduledTokens : ℤ := l.numScheduledTokens.sum fun _ k => k

/-- The part of the output that others read: workers, and `update_from_output`. -/
structure SchedulerOutput (n : ℕ) where
  scheduledNewReqs : List RequestId
  scheduledResumedReqs : List RequestId
  scheduledRunningReqs : List RequestId
  numScheduledTokens : OrderedDict RequestId ℤ
  totalNumScheduledTokens : ℤ
  scheduledSpecDecodeTokens : OrderedDict RequestId (List ℤ)
  scheduledEncoderInputs : OrderedDict RequestId (List ℕ)
  preemptedReqIds : List RequestId
  finishedReqIds : List RequestId
  freeEncoderMmHashes : List MmHash
  hasSyncKvLoads : Bool
  kvCacheBlockCopies : List (Fin n × Fin n)
  numSpecTokensToSchedule : ℕ

def startLocals : Locals where
  scheduledNewReqs := []
  scheduledResumedReqs := []
  scheduledRunningReqs := []
  preemptedReqs := []
  numScheduledTokens := .empty
  scheduledSpecDecodeTokens := .empty
  scheduledEncoderInputs := .empty
  tokenBudget := if s.pauseState = .pausedAll then 0 else cfg.maxNumScheduledTokens
  inputBudget := cfg.maxNumBatchedTokens
  encoderComputeBudget := cfg.maxNumEncoderInputTokens
  prefillScheduled := false
  hasSyncKvLoads := false
  reqIndex := 0
  scheduledLoras := ∅
  stepSkippedWaiting := []

def defersPrefills : Bool :=
  env.throttlePrefills && !s.prefillCapacityBound &&
    s.running.any fun r => (s.requests.get? r).any fun request => !request.isPrefillChunk

def recordLoras : PassM n m PUnit := do
  let p ← get
  match cfg.maxLoras with
  | none => return ⟨⟩
  | some maxLoras =>
    let loras := p.locals.scheduledRunningReqs.filterMap fun r =>
      (p.sched.requests.get? r).bind fun request =>
        request.loraRequest.bind fun lora =>
          if 0 < lora.adapterId then some lora.adapterId else none
    check (loras.toFinset.card ≤ maxLoras)
      (.assertionError "len(scheduled_loras) <= self.lora_config.max_loras")
    modifyLocals fun l => { l with scheduledLoras := loras.toFinset }

def scheduleWaiting (deferPrefills : Bool) : PassM n m PUnit := do
  -- The waiting requests are looked at when nothing was preempted and the scheduler is not
  -- paused.
  let p ← get
  onlyIf (p.locals.preemptedReqs = [] ∧ p.sched.pauseState = .unpaused) do
    waitingLoop cfg env deferPrefills (p.sched.waiting.length + p.sched.skippedWaiting.length)
    modify fun p => { p with
      sched := { p.sched with
        skippedWaiting := prependRequests cfg.policy p.sched.lt p.sched.skippedWaiting
          p.locals.stepSkippedWaiting
        prefillCapacityBound :=
          if deferPrefills then p.sched.prefillCapacityBound
          else decide (p.sched.waiting ≠ []) } }

def checkConstraints : PassM n m PUnit := do
  let p ← get
  check (totalNumScheduledTokens p.locals ≤ cfg.maxNumScheduledTokens) (.assertionError
    "total_num_scheduled_tokens <= self.max_num_scheduled_tokens")
  check (0 ≤ p.locals.tokenBudget) (.assertionError "token_budget >= 0")
  check (0 ≤ p.locals.inputBudget) (.assertionError "input_budget >= 0")
  check (p.sched.running.length ≤ cfg.maxNumRunningReqs)
    (.assertionError "len(self.running) <= self.max_num_running_reqs")
  check (p.locals.scheduledNewReqs.length + p.locals.scheduledResumedReqs.length +
      p.locals.scheduledRunningReqs.length ≤ p.sched.running.length) (.assertionError
    ("len(scheduled_new_reqs) + len(scheduled_resumed_reqs) + " ++
      "len(scheduled_running_reqs) <= len(self.running)"))

def scheduleLoops : PassM n m PUnit := do
  let p ← get
  let deferPrefills := defersPrefills env p.sched
  runningLoop cfg env deferPrefills p.sched.running.length
  recordLoras cfg
  scheduleWaiting cfg env deferPrefills

def schedulePass : PassM n m PUnit := do
  scheduleLoops cfg env
  checkConstraints cfg

/-- `take_kv_cache_block_copies`. The copies are the pairs of endpoints, which
are retained until the copies have run. -/
def takeKvCacheBlockCopies : SchedM n m (List (Fin n × Fin n)) := do
  let s ← get
  set { s with cache := { s.cache with
    managers := fun i => { s.cache.managers i with pendingCowCopies := [] } } }
  return (List.finRange m).flatMap fun i => (s.cache.managers i).pendingCowCopies

def dispatchCopies : SchedM n m (List (Fin n × Fin n)) := do
  -- The copies of this step. They run with the next non-empty step, which fences the blocks they
  -- retain.
  let copies ← takeKvCacheBlockCopies
  let s ← get
  onlyIf (copies ≠ []) (freeCowRetainedBlocks cfg
    (copies.flatMap fun (source, cow) => [source, cow]) (s.schedStepSeq + 1))
  return copies

def SchedRequest.advanced (seq : ℕ) (numScheduledTokens : ℤ) (r : SchedRequest) :
    SchedRequest :=
  let numComputedTokens := r.numComputedTokens + numScheduledTokens
  { r with
    numComputedTokens
    numInFlightTokens := r.numInFlightTokens + numScheduledTokens
    lastSchedSeq := if cfg.deferBlockFree then seq else r.lastSchedSeq
    isPrefillChunk := numComputedTokens < r.numTokens + r.numOutputPlaceholders }

def SchedRequest.awaitingOutput (currentStep numSpecTokensToSchedule numScheduledSpecTokens : ℕ)
    (r : SchedRequest) : SchedRequest :=
  -- Asynchronous scheduling: placeholders for the tokens that the step samples and for the next
  -- drafts.
  if r.isPrefillChunk then r
  else
    { r with
      numOutputPlaceholders :=
        r.numOutputPlaceholders + (cfg.numSampledTokensPerStep + numScheduledSpecTokens)
      specTokenIds := List.replicate numSpecTokensToSchedule (-1)
      nextDecodeEligibleStep :=
        if cfg.useV2ModelRunner then currentStep + cfg.ppSize else r.nextDecodeEligibleStep }

def advanceRequest (numScheduledTokens : ℤ) : SchedM n m PUnit := do
  let request ← getRequest r
  let s ← get
  let advanced := request.advanced cfg s.schedStepSeq numScheduledTokens
  set { s with
    requests := s.requests.set r advanced
    inflightPrefills :=
      if advanced.isPrefillChunk then s.inflightPrefills else s.inflightPrefills.erase r }

def updateAfterSchedule (out : SchedulerOutput n) : SchedM n m PUnit := do
  forM out.numScheduledTokens.entries fun e => advanceRequest cfg e.1 e.2
  modify fun s => { s with finishedReqIds := [], resetPreemptedReqIds := [] }
  onlyIf (cfg.asyncScheduling = true) do
    forM out.numScheduledTokens.entries fun e => do
      let s ← get
      modifyRequest e.1 (SchedRequest.awaitingOutput cfg s.currentStep out.numSpecTokensToSchedule
        ((out.scheduledSpecDecodeTokens.get? e.1).getD []).length)

def specTokensToSchedule : ℕ :=
  match cfg.dynamicSdLookup with
  | none => cfg.numSpecTokens
  | some lookup =>
    if 0 < l.numScheduledTokens.entries.length then lookup l.numScheduledTokens.entries.length
    else cfg.numSpecTokens

def buildOutput : SchedM n m (SchedulerOutput n) := do
  let kvCacheBlockCopies ← dispatchCopies cfg
  let freeEncoderMmHashes ← onEncoder EncoderManager.getFreedMmHashes
  let s ← get
  return {
    scheduledNewReqs := if cfg.useV2ModelRunner then l.scheduledNewReqs ++ l.scheduledResumedReqs
      else l.scheduledNewReqs
    scheduledResumedReqs := if cfg.useV2ModelRunner then [] else l.scheduledResumedReqs
    scheduledRunningReqs := l.scheduledRunningReqs
    numScheduledTokens := l.numScheduledTokens
    totalNumScheduledTokens := totalNumScheduledTokens l
    scheduledSpecDecodeTokens := l.scheduledSpecDecodeTokens
    scheduledEncoderInputs := l.scheduledEncoderInputs
    preemptedReqIds := s.resetPreemptedReqIds
    finishedReqIds := s.finishedReqIds
    freeEncoderMmHashes
    hasSyncKvLoads := l.hasSyncKvLoads
    kvCacheBlockCopies
    numSpecTokensToSchedule := specTokensToSchedule cfg l }

def runPass (env : ScheduleEnv n m) : SchedM n m Locals := fun s =>
  match (schedulePass cfg env).run { sched := s, locals := startLocals cfg s } with
  | .ok _ p => .ok p.locals p.sched
  | .error e p => .error e p.sched

def startCall : SchedM n m PUnit := do
  modify fun s => { s with currentStep := s.currentStep + 1 }
  onCache (Coordinator.newStepStarts cfg.cache)

def finishCall : SchedM n m (SchedulerOutput n) := do
  let out ← buildOutput cfg l
  modify fun s => { s with
    schedStepSeq :=
      if cfg.deferBlockFree ∧ 0 < out.totalNumScheduledTokens then s.schedStepSeq + 1
      else s.schedStepSeq }
  updateAfterSchedule cfg out
  return out

def schedule : SchedM n m (SchedulerOutput n) := do
  startCall cfg
  let l ← runPass cfg env
  finishCall cfg l

end Vllm.Scheduler
