import Vllm.KVCacheRuns
import Vllm.SchedulerOutputs

/-!
Runs of the engine around the scheduler. Requests come and go, steps are
scheduled, and the output of the oldest step in flight is processed; any number
of steps may be in flight. A run goes on as long as its operations return.
-/
namespace Vllm.Scheduler

open Pool CacheManagers EncoderCache
open StreamingSession (RequestStatus)

variable {n m : ℕ}

@[mk_iff]
structure SchedRequest.Fresh (r : SchedRequest) : Prop where
  status : r.status = .waiting ∨ r.status = .waitingForStructuredOutputGrammar
  outputTokenIds : r.outputTokenIds = []
  allTokenIds : r.allTokenIds.length = r.numPromptTokens
  numComputedTokens : r.numComputedTokens = 0
  numInFlightTokens : r.numInFlightTokens = 0
  numOutputPlaceholders : r.numOutputPlaceholders = 0
  numStaleOutputTokens : r.numStaleOutputTokens = 0
  dropStaleOutput : r.dropStaleOutput = false
  specTokenIds : r.specTokenIds = []
  isPrefillChunk : r.isPrefillChunk = false
  numPreemptions : r.numPreemptions = 0
  nextDecodeEligibleStep : r.nextDecodeEligibleStep = 0
  lastSchedSeq : r.lastSchedSeq = 0
  sharedPrefixBoundary : r.sharedPrefixBoundary = 0
  streamingQueue : r.streamingQueue = none

instance (r : SchedRequest) : Decidable r.Fresh :=
  decidable_of_iff _ r.fresh_iff.symm

structure Engine (n m : ℕ) where
  sched : SchedulerState n m
  inFlight : List (SchedulerOutput n)

inductive Op (n m : ℕ) where
  | addRequest (request : SchedRequest) (delaysFree : RequestId → Bool)
  | schedule (env : ScheduleEnv n m)
  | updateFromOutput (res : RunnerOutput n)
  | finishRequests (ids : List RequestId) (status : RequestStatus)
      (delaysFree : RequestId → Bool)
  | updateDraftTokenIds (drafts : List (RequestId × List ℤ))
  | resetPrefixCache (resetRunningRequests : Bool)
  | setPauseState (pauseState : PauseState)
  | resetEncoderCache

def returned {α : Type} (op : SchedM n m α) (s : SchedulerState n m) :
    Option (α × SchedulerState n m) :=
  match op.run s with
  | .ok a t => some (a, t)
  | .error _ _ => none

theorem returned_eq_some_iff {α : Type} {op : SchedM n m α} {s t : SchedulerState n m} {a : α} :
    returned op s = some (a, t) ↔ op.run s = .ok a t := by
  unfold returned
  cases op.run s <;> simp

namespace Engine

variable (cfg : SchedConfig m)

/-- The engine after an operation, or `none` when the call does not return or
there is no output to process. -/
def step (op : Op n m) (e : Engine n m) : Option (Engine n m) :=
  let keep (sched : SchedulerState n m) : Engine n m := { e with sched }
  match op with
  | .addRequest request delaysFree =>
    (returned (Scheduler.addRequest cfg delaysFree request) e.sched).map fun x => keep x.2
  | .schedule env =>
    (returned (Scheduler.schedule cfg env) e.sched).map fun x => ⟨x.2, e.inFlight ++ [x.1]⟩
  | .updateFromOutput res =>
    match e.inFlight with
    | [] => none
    | out :: inFlight =>
      (returned (Scheduler.updateFromOutput cfg out res) e.sched).map fun x => ⟨x.2, inFlight⟩
  | .finishRequests ids status delaysFree =>
    (returned (Scheduler.finishRequests cfg delaysFree ids status) e.sched).map fun x => keep x.2
  | .updateDraftTokenIds drafts =>
    (returned (Scheduler.updateDraftTokenIds drafts) e.sched).map fun x => keep x.2
  | .resetPrefixCache resetRunningRequests =>
    (returned (Scheduler.resetPrefixCache cfg resetRunningRequests) e.sched).map fun x => keep x.2
  | .setPauseState pauseState =>
    (returned (Scheduler.setPauseState pauseState) e.sched).map fun x => keep x.2
  | .resetEncoderCache =>
    (returned Scheduler.resetEncoderCache e.sched).map fun x => keep x.2

def start (pool : BlockPool n) (encoder : EncoderManager) : Engine n m where
  sched :=
    { cache := ⟨pool, fun _ => KVCacheRuns.initManager⟩
      encoder
      requests := .empty
      running := []
      waiting := []
      skippedWaiting := []
      numWaitingForStreamingInput := 0
      finishedReqIds := []
      resetPreemptedReqIds := []
      finishedRecvingKvReqIds := ∅
      failedRecvingKvReqIds := ∅
      grammarCompileErrorReqs := ∅
      inflightPrefills := ∅
      currentStep := 0
      prefillCapacityBound := false
      schedStepSeq := 0
      processedStepSeq := 0
      deferredFrees := []
      pauseState := .unpaused }
  inFlight := []

end Engine

end Vllm.Scheduler
