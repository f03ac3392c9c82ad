import Vllm.OutputQueues
import Vllm.ScheduleCalls
import Vllm.SlotRuns

/-!
The queues along whole runs. Every operation of the engine keeps them in order;
that nothing is lost asks of the outputs that they do not stop a session which is
not running.
-/
namespace Vllm.Scheduler

open Outcome Pool CacheManagers EncoderCache List Option

variable {n m : ℕ} {whole : Prop} {cfg : SchedConfig m} {s t : SchedulerState n m}
  {r : RequestId} {out : SchedulerOutput n} {res : RunnerOutput n}

/-! ### The output of a step -/

theorem returns_drainLoop {Q : PUnit → SchedulerState n m → Prop}
    (fences : List (ℕ × List (Fin n)))
    (h : ∀ cache deferredFrees, Q ⟨⟩ { s with cache, deferredFrees }) :
    Returns (drainLoop fences) s Q := by
  induction fences generalizing s with
  | nil => exact h s.cache s.deferredFrees
  | cons fence rest ih =>
    refine returns_get (returns_ite (fun _ => h s.cache s.deferredFrees) fun _ => returns_bind ?_)
    exact returns_bind (returns_returnBlocks fun _ => ih fun cache' deferredFrees =>
      h cache' deferredFrees)

theorem completeStep_spec (h : Queued whole cfg s) : Returns (completeStep cfg out) s
      fun _ t => Queued whole cfg t ∧ t.requests = s.requests := by
  refine returns_onlyIf (fun _ => returns_modify (returns_get ?_)) fun _ => ⟨h, rfl⟩
  exact returns_drainLoop _ fun cache deferredFrees => ⟨h.frame {}, rfl⟩

/-- What an output does to a request depends on the same data. -/
def SameCourses (s t : SchedulerState n m) : Prop :=
  ∀ r q', t.requests.get? r = some q' →
    ∃ q, s.requests.get? r = some q ∧ SameCourse q q' ∧ (Counts q' → Counts q)

theorem SameCourses.modifyRequest (h : SameCourses s t) (x : RequestId)
    {f : SchedRequest → SchedRequest}
    (hf : ∀ q, SameCourse q (f q) ∧ (Counts (f q) → Counts q)) :
    SameCourses s (t.modifyRequest x f) := by
  intro r q' hq'
  unfold SchedulerState.modifyRequest at hq'
  split at hq'
  · exact h r q' hq'
  · next q hq =>
    rw [OrderedDict.get?_set] at hq'
    by_cases hr : r = x
    · rw [if_pos hr] at hq'
      cases hq'
      rw [← hr] at hq
      obtain ⟨q₀, hq₀, hsame, hcounts⟩ := h r q hq
      exact ⟨q₀, hq₀, hsame.trans (hf q).1, fun hc => hcounts ((hf q).2 hc)⟩
    · rw [if_neg hr] at hq'
      exact h r q' hq'

/-- A failed load cuts computed tokens and changes neither queues nor what an output does. -/
theorem writeBack_spec (requests : List CacheRequest) (h : Queued whole cfg t)
    (hcourses : SameCourses s t) :
    Queued whole cfg (writeBack t requests) ∧ SameCourses s (writeBack t requests) := by
  induction requests generalizing t with
  | nil => exact ⟨h, hcourses⟩
  | cons x requests ih =>
    have hcut (q : SchedRequest) : SameCourse q
        (if q.numComputedTokens.toNat = x.numComputedTokens then q
          else { q with numComputedTokens := x.numComputedTokens }) ∧
        (Counts (if q.numComputedTokens.toNat = x.numComputedTokens then q
          else { q with numComputedTokens := x.numComputedTokens }) → Counts q) := by
      split
      · exact ⟨.refl q, fun hcounts => hcounts⟩
      · exact ⟨⟨rfl, rfl, rfl, rfl⟩, fun hcounts => hcounts⟩
    apply ih
    · exact h.modifyRequest x.requestId fun q => ⟨(hcut q).1.id, (hcut q).1.status⟩
    · exact hcourses.modifyRequest x.requestId hcut

section
variable (h : Queued whole cfg s)
include h

/-- The scan for failed loads leaves the queues as they are. -/
theorem findFailedLoads_spec : Returns (findFailedLoads cfg out res) s
      fun _ t => Queued whole cfg t ∧ SameCourses s t := by
  have hrefl : SameCourses s s := fun r q hq => ⟨q, hq, .refl q, fun hcounts => hcounts⟩
  refine returns_ite (fun _ => ⟨h, hrefl⟩) fun _ => returns_get ?_
  refine returns_ite (fun _ => ⟨h, hrefl⟩) fun _ => returns_expect fun i _ => ?_
  dsimp only
  split
  · trivial
  · next failed scan _ =>
    obtain ⟨hwaiting, hcourses⟩ := writeBack_spec scan.skippedWaiting h hrefl
    obtain ⟨hrunning, hcourses⟩ := writeBack_spec scan.running hwaiting hcourses
    exact returns_bind ⟨hrunning.frame {}, hcourses⟩

theorem finishErrors_spec {failed : List RequestId} :
    Returns (finishErrors cfg res failed) s fun _ => Queued whole cfg := by
  have hcleared : Queued whole cfg { s with grammarCompileErrorReqs := ∅ } := h.frame {}
  exact returns_get (returns_bind (returns_onlyIf (fun _ => finishRequests_spec hcleared)
    fun _ => hcleared))

theorem freeBlocks_spec : Returns (freeBlocks cfg r) s fun _ => Queued whole cfg :=
  returns_freeBlocks fun _ _ _ hrequest hfinished => (h.erase hrequest hfinished).frame {}

theorem updateFromKvXferFinished_spec :
    Returns (updateFromKvXferFinished cfg res) s fun _ => Queued whole cfg := by
  refine (returns_forM (Queued whole cfg) _ (fun r _ t ht => ?_) h).bind fun _ t ht =>
    returns_forM (Queued whole cfg) _ (fun r _ u hu => ?_) ht
  · refine returns_get (returns_expect fun request hrequest => ?_)
    refine returns_ite (fun _ => ?_) fun _ => ?_
    · exact ht.frame {}
    · exact returns_check fun _ => freeBlocks_spec ht
  · exact returns_get (returns_check fun _ => freeBlocks_spec hu)
end

/-- The output of a step does not stop a session that is not running. -/
def SteadyOutput (cfg : SchedConfig m) (out : SchedulerOutput n) (res : RunnerOutput n)
    (s : SchedulerState n m) : Prop :=
  ∀ r ∈ out.numScheduledTokens.keys, ∀ q, s.requests.get? r = some q → Counts q → Steady cfg res r q

/-- Each part of `update_from_output` keeps the queues in order, one after the other. -/
theorem updateFromOutput_spec
    (h : Queued whole cfg s) (hsteady : whole → SteadyOutput cfg out res s) :
    Returns (updateFromOutput cfg out res) s fun _ => Queued whole cfg := by
  refine (completeStep_spec h).bind fun _ s₁ ⟨h₁, hrequests⟩ => ?_
  refine (findFailedLoads_spec h₁).bind fun failed s₂ ⟨h₂, hcourses⟩ => ?_
  have hnew : ∀ e ∈ out.numScheduledTokens.entries, ¬ StoppedReqs.Lists ⟨[], []⟩ e.1 := by
    intro e _ hbad
    obtain hbad | hbad := hbad
    · exact not_mem_nil hbad
    · exact not_mem_nil hbad
  have hsteady₂ (hwhole : whole) : ∀ e ∈ out.numScheduledTokens.entries, ∀ q,
      s₂.requests.get? e.1 = some q → Counts q → Steady cfg res e.1 q := by
    intro e he q hq hcounts
    obtain ⟨q₀, hq₀, hsame, hcounts₀⟩ := hcourses e.1 q hq
    rw [hrequests] at hq₀
    have hkey : e.1 ∈ out.numScheduledTokens.keys := mem_map_of_mem he
    exact (hsteady hwhole e.1 hkey q₀ hq₀ (hcounts₀ hcounts)).congr hsame
  refine (processRequests_spec out.numScheduledTokens.entries out.numScheduledTokens.nodup
    (Processing.start h₂) hnew hsteady₂).bind fun stopped s₃ hprocessed => returns_modify ?_
  exact (finishErrors_spec hprocessed.removeStopped).bind fun _ s₄ h₄ =>
    updateFromKvXferFinished_spec h₄

/-! ### The other operations -/

/-- A new request joins one queue; a known session takes the update in its place. -/
theorem addRequest_spec {delaysFree : RequestId → Bool} {request : SchedRequest}
    (h : Queued whole cfg s) (hfresh : request.Fresh) :
    Returns (addRequest cfg delaysFree request) s fun _ => Queued whole cfg := by
  refine returns_get ?_
  split
  · next hnone =>
    rw [Returns, ensures_bind, ensures_set]
    refine returns_enqueueWaitingRequest fun waiting skippedWaiting hperm => ?_
    have hstatus : request.status ≠ .running ∧ isFinished request.status = false ∧
        request.status ≠ .waitingForStreamingReq := by
      obtain heq | heq := hfresh.status
      all_goals
        rw [heq]
        decide
    have hnot : request.requestId ∉ s.queues := by
      intro hbad
      obtain ⟨q, hq, -⟩ := h.known _ hbad
      exact absurd (hnone.symm.trans hq) (by simp)
    have hqueues : (s.running ++ (waiting ++ skippedWaiting)).Perm
        (request.requestId :: s.queues) :=
      (hperm.append_left s.running).trans perm_middle
    refine h.insert hnone rfl rfl
      (hqueues.nodup_iff.mpr (nodup_cons.mpr ⟨hnot, h.nodup⟩))
      (fun x hx => hqueues.mem_iff.trans (mem_cons.trans (or_iff_right hx))) rfl hstatus.1
      (fun _ => hstatus.2.1) (fun _ _ => hqueues.mem_iff.mpr mem_cons_self) ?_
    have hwaits := SchedRequest.waits_of_ne hstatus.2.2
    change s.numWaitingForStreamingInput = s.numWaitingForStreamingInput + request.waits
    omega
  · next existing hexisting =>
    refine returns_ite (fun _ => returns_expect fun queue _ => ?_) fun hwaits => ?_
    · exact h.modifyRequest _ fun q => ⟨rfl, rfl⟩
    · rw [not_not] at hwaits
      split
      · next update _ =>
        refine returns_bind (returns_getRequest fun current hcurrent => ?_)
        obtain rfl : existing = current := Option.some.inj (hexisting.symm.trans hcurrent)
        split
        · trivial
        · next continued hcontinued =>
          obtain ⟨hid, hstatus⟩ := continued_frame hcontinued
          refine h.restate hexisting (fun hbad => ?_) rfl (hid.trans (h.ids _ existing hexisting))
            (by rw [hstatus]; decide) (by rw [hstatus]; rfl) rfl (.refl _)
            (by rw [hwaits]; rfl) ?_
          · have hrunning := (h.running _ existing hexisting).mpr hbad
            exact absurd (hwaits.symm.trans hrunning) (by decide)
          · simp only [SchedRequest.waits, hwaits, hstatus]
            simp
      · exact finishRequests_spec h

theorem updateDraftTokenIds_spec {drafts : List (RequestId × List ℤ)} (h : Queued whole cfg s) :
    Returns (updateDraftTokenIds drafts) s fun _ => Queued whole cfg := by
  refine returns_forM (Queued whole cfg) _ (fun e _ t ht => ht.modifyRequest _ fun q => ?_) h
  split
  · exact ⟨rfl, rfl⟩
  · split
    · exact ⟨rfl, rfl⟩
    · exact ⟨rfl, rfl⟩

/-- Each preemption moves one request from the running list to the front of the waiting queue. -/
theorem preemptAll_spec (fuel : ℕ) (h : Queued whole cfg s) :
    Returns (preemptAll cfg fuel) s fun _ => Queued whole cfg := by
  induction fuel generalizing s with
  | zero => exact h
  | succ fuel ih =>
    refine returns_get ?_
    split
    · exact h
    · next r hlast =>
      refine returns_bind (returns_bind (returns_preemptRequest ?_))
      intro q cache deferredFrees encoder waiting hq _ hwaiting
      exact ih (h.preempt hq (mem_of_getLast? hlast) rfl (h.ids r q hq) rfl
        (dropLast_eq_erase hlast h.nodup.of_append_left) hwaiting rfl rfl)

theorem resetPrefixCache_spec {resetRunningRequests : Bool} (h : Queued whole cfg s) :
    Returns (resetPrefixCache cfg resetRunningRequests) s fun _ => Queued whole cfg := by
  refine returns_get (Returns.bind (P := fun _ => Queued whole cfg)
    (returns_onlyIf (fun _ => preemptAll_spec _ h) fun _ => h) fun _ t ht => ?_)
  exact returns_bind (returns_onCache fun _ _ => returns_check fun _ => ht.frame {})

/-! ### Runs -/

/-- What the engine promises of an operation: a request that is added is new. -/
def Op.Promised : Op n m → Prop
  | .addRequest request _ => request.Fresh
  | _ => True

instance : (op : Op n m) → Decidable op.Promised
  | .addRequest request _ => inferInstanceAs (Decidable request.Fresh)
  | .schedule _ | .updateFromOutput _ | .finishRequests .. | .updateDraftTokenIds _
  | .resetPrefixCache _ | .setPauseState _ | .resetEncoderCache => inferInstanceAs (Decidable True)

/-- The operation does not stop a session that is not running. -/
def Op.Steady (cfg : SchedConfig m) (e : Engine n m) : Op n m → Prop
  | .updateFromOutput res => ∀ out ∈ e.inFlight.head?, SteadyOutput cfg out res e.sched
  | _ => True

def EncoderManager.Fresh : EncoderManager → Prop
  | .shared cache => cache = .create cache.cacheSize
  | .counting cache => cache = .create cache.cacheSize

/-- The engines reached from start-up by allowed operations. -/
inductive Run [NeZero n] (cfg : SchedConfig m) (allowed : Engine n m → Op n m → Prop) :
    Engine n m → Prop
  | start {pool : BlockPool n} {encoder : EncoderManager} (hashBlockSize : ℕ)
      (enableKvCacheEvents : Bool)
      (hpool : initPool n cfg.cache.enableCaching hashBlockSize enableKvCacheEvents = .ok pool)
      (hencoder : EncoderManager.Fresh encoder) : Run cfg allowed (.start pool encoder)
  | step {e e' : Engine n m} {op : Op n m} (h : Run cfg allowed e) (hpromised : op.Promised)
      (hallowed : allowed e op) (hstep : e.step cfg op = some e') : Run cfg allowed e'

theorem Queued.of_returned {α : Type} {op : SchedM n m α} {x : α × SchedulerState n m}
    (h : Returns op s fun _ t => Queued whole cfg t) (hx : returned op s = some x) :
    Queued whole cfg x.2 :=
  h.of_ok (returned_eq_some_iff.mp hx)

/-- One operation of the engine keeps the queues in order. -/
theorem Queued.step {e e' : Engine n m} {op : Op n m} (h : Queued whole cfg e.sched)
    (hpromised : op.Promised) (hsteady : whole → op.Steady cfg e)
    (hstep : e.step cfg op = some e') : Queued whole cfg e'.sched := by
  cases op with
  | addRequest request delaysFree =>
    obtain ⟨x, hx, rfl⟩ := map_eq_some_iff.mp hstep
    exact Queued.of_returned (addRequest_spec h hpromised) hx
  | schedule env =>
    obtain ⟨x, hx, rfl⟩ := map_eq_some_iff.mp hstep
    exact ((schedule_spec h).of_ok (returned_eq_some_iff.mp hx)).1
  | updateFromOutput res =>
    obtain ⟨sched, inFlight⟩ := e
    cases inFlight with
    | nil => cases hstep
    | cons out rest =>
      obtain ⟨x, hx, rfl⟩ := map_eq_some_iff.mp hstep
      have hout (hwhole : whole) : SteadyOutput cfg out res sched := hsteady hwhole out rfl
      exact Queued.of_returned (updateFromOutput_spec h hout) hx
  | finishRequests ids status delaysFree =>
    obtain ⟨x, hx, rfl⟩ := map_eq_some_iff.mp hstep
    exact Queued.of_returned (finishRequests_spec h) hx
  | updateDraftTokenIds drafts =>
    obtain ⟨x, hx, rfl⟩ := map_eq_some_iff.mp hstep
    exact Queued.of_returned (updateDraftTokenIds_spec h) hx
  | resetPrefixCache resetRunningRequests =>
    obtain ⟨x, hx, rfl⟩ := map_eq_some_iff.mp hstep
    exact Queued.of_returned (resetPrefixCache_spec h) hx
  | setPauseState pauseState =>
    cases hstep
    exact h.frame {}
  | resetEncoderCache =>
    obtain ⟨x, hx, rfl⟩ := map_eq_some_iff.mp hstep
    exact Queued.of_returned (returns_onEncoder fun _ _ => h.frame {}) hx

variable {allowed : Engine n m → Op n m → Prop} {e : Engine n m}

/-- The queues are in order in every state of a run, and whole when no output stops
a session that is not running. -/
theorem Run.queued [NeZero n] (h : Run cfg allowed e)
    (hallowed : whole → ∀ e op, allowed e op → op.Steady cfg e) : Queued whole cfg e.sched := by
  induction h with
  | start hashBlockSize enableKvCacheEvents hpool hencoder =>
    exact
      { ids := fun _ _ hq => by cases hq
        nodup := nodup_nil
        known := fun _ hr => absurd hr not_mem_nil
        running := fun _ _ hq => by cases hq
        streaming := le_refl 0
        capacity := Nat.zero_le _
        all := fun _ _ _ hq => by cases hq
        exact := fun _ => rfl }
  | step _ hpromised hop hstep ih =>
    exact ih.step hpromised (fun hwhole => hallowed hwhole _ _ hop) hstep

/-- The operations are allowed and return one after the other, and `P` holds of the
engine they lead to. -/
def Engine.Reaches (cfg : SchedConfig m) (allowed : Engine n m → Op n m → Prop)
    (P : Engine n m → Prop) : List (Op n m) → Engine n m → Prop
  | [], e => P e
  | op :: ops, e => allowed e op ∧ ∃ e' ∈ e.step cfg op, Engine.Reaches cfg allowed P ops e'

instance Engine.decidableReaches (allowed : Engine n m → Op n m → Prop)
    [∀ e op, Decidable (allowed e op)] (P : Engine n m → Prop) [DecidablePred P] :
    ∀ ops e, Decidable (Engine.Reaches cfg allowed P ops e)
  | [], e => inferInstanceAs (Decidable (P e))
  | op :: ops, e =>
    have : DecidablePred (Engine.Reaches cfg allowed P ops) :=
      fun e' => Engine.decidableReaches allowed P ops e'
    inferInstanceAs (Decidable (allowed e op ∧
      ∃ e' ∈ e.step cfg op, Engine.Reaches cfg allowed P ops e'))

/-- A run goes on with the operations that return. -/
theorem Run.reaches [NeZero n] {P : Engine n m → Prop} {ops : List (Op n m)}
    (h : Run cfg allowed e) (hpromised : ∀ op ∈ ops, op.Promised)
    (hreaches : e.Reaches cfg allowed P ops) : ∃ e', Run cfg allowed e' ∧ P e' := by
  induction ops generalizing e with
  | nil => exact ⟨e, h, hreaches⟩
  | cons op ops ih =>
    obtain ⟨hop, e', hstep, hrest⟩ := hreaches
    have hrun := h.step (hpromised op mem_cons_self) hop hstep
    exact ih hrun (fun op' hop' => hpromised op' (mem_cons_of_mem op hop')) hrest

/-- The engine at start-up, with hash blocks of the size of the blocks. -/
def Engine.boot (n : ℕ) [NeZero n] (cfg : SchedConfig m) (encoder : EncoderManager) :
    Option (Engine n m) :=
  match initPool n cfg.cache.enableCaching cfg.cache.schedulerBlockSize false with
  | .ok pool => some (.start pool encoder)
  | .error _ => none

theorem exists_run_of_boot [NeZero n] (cfg : SchedConfig m)
    (allowed : Engine n m → Op n m → Prop) (encoder : EncoderManager) (ops : List (Op n m))
    (P : Engine n m → Prop) (hencoder : EncoderManager.Fresh encoder)
    (hpromised : ∀ op ∈ ops, op.Promised)
    (hreaches : ∃ e ∈ Engine.boot n cfg encoder, e.Reaches cfg allowed P ops) :
    ∃ e, Run cfg allowed e ∧ P e := by
  obtain ⟨e, hboot, hreaches⟩ := hreaches
  rw [mem_def, Engine.boot] at hboot
  split at hboot
  · next pool hpool =>
    cases hboot
    exact (Run.start _ _ hpool hencoder).reaches hpromised hreaches
  · cases hboot

/-! ### A small engine -/

/-- One group in blocks of four tokens and steps of at most eight tokens. -/
def smallConfig (kind : ManagerKind) : SchedConfig 1 where
  split := { AlignedSplit.eightTokens (Nat.succPNat 3) with cache := SlotRuns.oneGroup kind false }
  speculative := none
  hasher := none
  policy := .fcfs
  asyncScheduling := false
  needMambaBlockAlignedSplit := false
  maxNumRunningReqs := 4
  enableChunkedPrefill := true
  numSampledTokensPerStep := 1
  numSpecTokens := 0
  dynamicSdLookup := none
  numLookaheadTokens := 0
  numPrefillLookahead := 0
  maxNumEncoderInputTokens := 0
  isEncoderDecoder := false
  disableChunkedMmInput := false
  isMmEncoderOnly := false
  maxLoras := none
  hasConnector := false
  hasEcConnector := false
  requiresKvDelivery := false
  recomputeKvLoadFailures := false
  useV2ModelRunner := false
  ppSize := 1
  deferBlockFree := false
  schedulerReserveFullIsl := false

def promptRequest (r : RequestId) (prompt : List ℕ) (maxTokens : ℕ) : SchedRequest where
  numPromptTokens := prompt.length
  promptTokenIds := some prompt
  outputTokenIds := []
  allTokenIds := prompt
  promptEmbeds := none
  mmFeatures := []
  loraRequest := none
  cacheSalt := none
  blockHashes := []
  requestId := r
  status := .waiting
  priority := 0
  arrivalTime := 0
  embedMasks := []
  samplingParams := ⟨none, [], 0, none⟩
  poolingParams := false
  maxTokens := maxTokens
  numComputedTokens := 0
  numInFlightTokens := 0
  numOutputPlaceholders := 0
  numStaleOutputTokens := 0
  dropStaleOutput := false
  specTokenIds := []
  isPrefillChunk := false
  numPreemptions := 0
  nextDecodeEligibleStep := 0
  lastSchedSeq := 0
  sharedPrefixBoundary := 0
  resumable := false
  streamingQueue := none

def sessionRequest (r : RequestId) (prompt : List ℕ) (maxTokens : ℕ) : SchedRequest :=
  { promptRequest r prompt maxTokens with resumable := true }

/-- Nothing is cached, and no connector answers. -/
def coldEnv : ScheduleEnv n m where
  throttlePrefills := false
  localHit _ := ⟨none, 0, 0, false⟩
  reconciledHit _ := ⟨none, 0, 0, false⟩
  connectorMatch _ := none
  ecReady _ := true
  grammar _ := .ready
  hasCacheItem _ := false

def sampled (tokens : RequestId → List ℕ) : RunnerOutput n where
  sampledTokenIds := tokens
  hasPoolerOutput _ := false
  grammarRejects _ := false
  invalidBlockIds := []
  finishedRecving := []
  finishedSending := []
  delaysFree _ := false

end Vllm.Scheduler
