import Vllm.WaitingPass

/-!
A whole call of `schedule`. The loops end with every request in its place and
the books in order; the closing assertions then hold, and the output is read off
the books. That the budgets are kept rests on what the requests look like before
the call.
-/
namespace Vllm.Scheduler

open Outcome CacheManagers RequestQueue List

variable {n m : ℕ} {whole fair : Prop} {cfg : SchedConfig m} {env : ScheduleEnv n m}

/-- The items of the requests in the queues are in order, and the call schedules
no request whose drafts are stale. -/
structure Ready (cfg : SchedConfig m) (env : ScheduleEnv n m) (s : SchedulerState n m) :
    Prop where
  running : ∀ r ∈ s.running, ∀ q, s.requests.get? r = some q →
    ItemsInOrder q.encoderRequest.mmFeatures
  waiting : ∀ r ∈ s.waiting ++ s.skippedWaiting, ∀ q, s.requests.get? r = some q →
    ItemsInOrder q.encoderRequest.mmFeatures
  drafts : FreshVisits cfg env (defersPrefills env s) s.running.length ⟨s, startLocals cfg s⟩

def StartsReady (cfg : SchedConfig m) (env : ScheduleEnv n m) (s : SchedulerState n m) : Prop :=
  ∀ s₀, (startCall cfg).run s = .ok ⟨⟩ s₀ → Ready cfg env s₀

structure Ended (whole fair : Prop) (cfg : SchedConfig m) (budget : ℤ) (p : Pass n m) : Prop where
  queued : Queued whole cfg p.sched
  books : Books fair cfg budget p.sched.running p.locals
  preempted : ∀ r ∈ p.locals.preemptedReqs, r ∉ p.sched.running

section
variable {budget : ℤ} {p : Pass n m} {s : SchedulerState n m}

theorem RunningInv.start (h : Queued whole cfg s) :
    RunningInv whole (Ready cfg env s) cfg (startLocals cfg s).tokenBudget
      ⟨s, startLocals cfg s⟩ where
  queued := h
  books := Books.start s s.running
  before _ hr := absurd hr not_mem_nil
  noneNew := rfl
  noneResumed := rfl
  noneAside := rfl
  preempted _ hr := absurd hr not_mem_nil
  inOrder hready := hready.running
  ordered hready := hready.waiting

section
variable (h : RunningInv whole fair cfg budget p)
include h

/-- Nothing was put aside, so the queues are those of the state. -/
theorem RunningInv.ended : Ended whole fair cfg budget p := by
  have hview : p.view = p.sched := by
    unfold Pass.view
    rw [h.noneAside]
    rfl
  have hqueued := h.queued
  rw [hview] at hqueued
  refine ⟨hqueued, h.books, ?_⟩
  intro r hr hbad
  have hwaiting : r ∈ p.sched.waiting ++ p.sched.skippedWaiting :=
    mem_append_left _ (h.preempted r hr)
  exact (nodup_append.mp hqueued.nodup).2.2 r hbad r hwaiting rfl

/-- The second loop starts where the first one ended, if nothing was preempted. -/
theorem RunningInv.waiting (hnone : p.locals.preemptedReqs = []) :
    WaitingInv whole fair cfg budget p where
  queued := h.queued
  books := h.books
  nonePreempted := hnone
  ordered := h.ordered

theorem recordLoras_spec :
    Returns (recordLoras cfg) p fun _ => RunningInv whole fair cfg budget := by
  refine returns_get ?_
  split
  · exact h
  · exact returns_check fun _ => { h with queued := h.queued, books := { h.books with } }

theorem scheduleWaiting_spec {deferPrefills : Bool} :
    Returns (scheduleWaiting cfg env deferPrefills) p
      fun _ => Ended whole fair cfg budget := by
  refine returns_get (returns_onlyIf (fun hopen => ?_) fun _ => h.ended)
  refine (waitingLoop_spec deferPrefills _ (h.waiting hopen.1)).bind fun _ p' hinv => ?_
  refine ⟨?_, hinv.books, ?_⟩
  · -- the requests put aside return to their queue
    exact hinv.queued.congr rfl rfl (List.Perm.append_left _ (prependRequests_perm ..)) rfl
  · rw [hinv.nonePreempted]
    exact fun r hr => absurd hr not_mem_nil
end

/-- Both loops together, from the start of a call. -/
theorem scheduleLoops_spec (h : Queued whole cfg s) :
    Returns (scheduleLoops cfg env) ⟨s, startLocals cfg s⟩
      fun _ => Ended whole (Ready cfg env s) cfg (startLocals cfg s).tokenBudget := by
  refine returns_get ((runningLoop_spec _ _ (RunningInv.start h) Ready.drafts).bind
    fun _ p hrunning => ?_)
  exact (recordLoras_spec hrunning).bind fun _ p' hrunning' => scheduleWaiting_spec hrunning'

/-- The scheduled requests are running, so there are no more of them. -/
theorem Ended.length_scheduled_le (h : Ended whole fair cfg budget p) :
    p.locals.scheduledNewReqs.length + p.locals.scheduledResumedReqs.length +
      p.locals.scheduledRunningReqs.length ≤ p.sched.running.length := by
  have hsubset : p.locals.scheduled ⊆ p.sched.running := by
    intro r hr
    exact h.books.running r (h.books.keys.mem_iff.mpr hr)
  have hle := (h.books.scheduled_nodup.subperm hsubset).length_le
  simp only [Locals.scheduled, length_append] at hle
  omega

/-- The closing assertions follow from the books. -/
theorem Ended.checkConstraints (h : Ended whole fair cfg budget p) (hfair : fair)
    (hbudget : budget ≤ cfg.maxNumScheduledTokens) :
    (checkConstraints cfg).run p = .ok ⟨⟩ p := by
  have hok : Ensures (Scheduler.checkConstraints cfg) p (fun _ p' => p' = p)
      (fun _ _ => False) := by
    have htokens := h.books.tokens
    have hnonneg := h.books.tokenBudget hfair
    simp only [Scheduler.checkConstraints, ensures_bind, ensures_get, ensures_check]
    refine ⟨fun _ => ⟨fun _ => ⟨fun _ => ⟨fun _ => ⟨fun _ => trivial, ?_⟩, ?_⟩, ?_⟩, ?_⟩, ?_⟩
    · exact absurd h.length_scheduled_le
    · exact absurd h.queued.capacity
    · exact absurd (h.books.inputBudget hfair)
    · exact absurd hnonneg
    · intro hbad
      omega
  obtain ⟨_, p', hrun, rfl⟩ := hok.exists_ok
  exact hrun
end

/-! ### The output -/

structure Reports (l : Locals) (out : SchedulerOutput n) : Prop where
  counts : out.numScheduledTokens = l.numScheduledTokens
  total : out.totalNumScheduledTokens = totalNumScheduledTokens l
  drafts : out.scheduledSpecDecodeTokens = l.scheduledSpecDecodeTokens
  encoder : out.scheduledEncoderInputs = l.scheduledEncoderInputs
  lists : out.scheduledRunningReqs ++ (out.scheduledNewReqs ++ out.scheduledResumedReqs) =
    l.scheduled

section
variable {s : SchedulerState n m} {l : Locals}

theorem returns_freeCowRetainedBlocks {blocks : List (Fin n)} {fence : ℕ}
    {Q : PUnit → SchedulerState n m → Prop}
    (h : ∀ cache deferredFrees, Q ⟨⟩ { s with cache, deferredFrees }) :
    Returns (freeCowRetainedBlocks cfg blocks fence) s Q :=
  returns_get (returns_ite (fun _ => returns_returnBlocks fun cache => h cache s.deferredFrees)
    fun _ => h s.cache _)

theorem returns_dispatchCopies {Q : List (Fin n × Fin n) → SchedulerState n m → Prop}
    (h : ∀ copies cache deferredFrees, Q copies { s with cache, deferredFrees }) :
    Returns (dispatchCopies cfg) s Q := by
  refine returns_bind (returns_get (returns_bind (returns_get (returns_bind ?_))))
  refine returns_onlyIf ?_ ?_
  · exact fun _ => returns_freeCowRetainedBlocks fun cache deferredFrees => h _ cache deferredFrees
  · exact fun _ => h _ _ s.deferredFrees

theorem returns_buildOutput {Q : SchedulerOutput n → SchedulerState n m → Prop}
    (h : ∀ out cache deferredFrees encoder, Reports l out →
      Q out { s with cache, deferredFrees, encoder }) : Returns (buildOutput cfg l) s Q := by
  refine returns_bind (returns_dispatchCopies fun copies cache deferredFrees => returns_bind
    (returns_onEncoder fun freed encoder => returns_get (h _ _ _ _ ⟨rfl, rfl, rfl, rfl, ?_⟩)))
  unfold Locals.scheduled
  by_cases hrunner : cfg.useV2ModelRunner = true
  · simp [hrunner]
  · simp [hrunner]

theorem advanceRequest_spec (h : Queued whole cfg s) (r : RequestId) (k : ℤ) :
    Returns (advanceRequest cfg r k) s
      fun _ t => Queued whole cfg t ∧ t.running = s.running := by
  refine returns_bind (returns_getRequest fun request hrequest => returns_get ⟨?_, rfl⟩)
  have hdata : Queued whole cfg { s with
      requests := s.requests.set r (request.advanced cfg s.schedStepSeq k) } :=
    h.setData hrequest rfl rfl
  exact hdata.frame {}

theorem awaitingOutput_frame (request : SchedRequest) (step spec scheduled : ℕ) :
    (request.awaitingOutput cfg step spec scheduled).requestId = request.requestId ∧
      (request.awaitingOutput cfg step spec scheduled).status = request.status := by
  unfold SchedRequest.awaitingOutput
  split <;> exact ⟨rfl, rfl⟩

/-- The bookkeeping after a call moves no request. -/
theorem updateAfterSchedule_spec (h : Queued whole cfg s) (out : SchedulerOutput n) :
    Returns (updateAfterSchedule cfg out) s
      fun _ t => Queued whole cfg t ∧ t.running = s.running := by
  refine (returns_forM (fun t => Queued whole cfg t ∧ t.running = s.running) _ ?_ ⟨h, rfl⟩).bind ?_
  · rintro e _ t ⟨hqueued, hrunning⟩
    exact (advanceRequest_spec hqueued e.1 e.2).mono fun _ u hu => ⟨hu.1, hu.2.trans hrunning⟩
  · rintro _ t ⟨hqueued, hrunning⟩
    have hcleared : Queued whole cfg { t with finishedReqIds := [], resetPreemptedReqIds := [] } :=
      hqueued.frame {}
    refine returns_modify (returns_onlyIf (fun _ => ?_) fun _ => ⟨hcleared, hrunning⟩)
    refine returns_forM (fun u => Queued whole cfg u ∧ u.running = s.running) _ ?_
      ⟨hcleared, hrunning⟩
    rintro e _ u ⟨hu, hurunning⟩
    refine returns_get ⟨hu.modifyRequest e.1 fun q => awaitingOutput_frame q .., ?_⟩
    dsimp only [SchedulerState.modifyRequest]
    split <;> exact hurunning

/-- The output reports what the loops have scheduled. -/
theorem finishCall_spec (h : Queued whole cfg s) : Returns (finishCall cfg l) s
      fun out t => Queued whole cfg t ∧ t.running = s.running ∧ Reports l out := by
  refine returns_bind (returns_buildOutput fun out cache deferredFrees encoder hreports =>
    returns_modify ((updateAfterSchedule_spec (h.frame {}) out).bind ?_))
  rintro _ t ⟨ht, hrunning⟩
  exact ⟨ht, hrunning, hreports⟩
end

/-! ### Whole calls -/

def callLocals (cfg : SchedConfig m) (env : ScheduleEnv n m) (s : SchedulerState n m) :
    Option Locals :=
  match (startCall cfg).run s with
  | .error _ _ => none
  | .ok _ s =>
    match (scheduleLoops cfg env).run { sched := s, locals := startLocals cfg s } with
    | .error _ _ => none
    | .ok _ p => some p.locals

/-- The output agrees with itself, with the budgets and with the queues. -/
structure Consistent (cfg : SchedConfig m) (l : Locals) (t : SchedulerState n m)
    (out : SchedulerOutput n) : Prop where
  total : out.totalNumScheduledTokens = out.numScheduledTokens.sum fun _ k => k
  tokens : (out.numScheduledTokens.sum fun _ k => k) = cfg.maxNumScheduledTokens - l.tokenBudget
  inputs : (out.numScheduledTokens.sum fun _ k => k + cfg.draftSlots) ≤ cfg.maxNumBatchedTokens
  running : ∀ r, r ∈ out.numScheduledTokens.keys ∨ r ∈ out.scheduledSpecDecodeTokens.keys ∨
    r ∈ out.scheduledEncoderInputs.keys → r ∈ t.running ∧ r ∉ l.preemptedReqs
  positive : ∀ r k, (r, k) ∈ out.numScheduledTokens.entries → 0 < k
  drafts : ∀ r ids, (r, ids) ∈ out.scheduledSpecDecodeTokens.entries →
    ∃ k, (r, k) ∈ out.numScheduledTokens.entries ∧
      (0 < cfg.numSampledTokensPerStep → (ids.length : ℤ) + 1 ≤ k)
  disjoint : (out.scheduledRunningReqs ++ (out.scheduledNewReqs ++ out.scheduledResumedReqs)).Nodup

variable {s : SchedulerState n m}

theorem returns_startCall {Q : PUnit → SchedulerState n m → Prop}
    (h : ∀ cache, Q ⟨⟩ { s with cache, currentStep := s.currentStep + 1 }) :
    Returns (startCall cfg) s Q :=
  returns_modify (returns_onCache fun _ cache => h cache)

theorem ensures_runPass {Q : Locals → SchedulerState n m → Prop}
    {E : Failure → SchedulerState n m → Prop} :
    Ensures (runPass cfg env) s Q E ↔ Ensures (schedulePass cfg env) ⟨s, startLocals cfg s⟩
      (fun _ p => Q p.locals p.sched) (fun e p => E e p.sched) := by
  unfold Ensures runPass
  simp only [EStateM.run]
  cases schedulePass cfg env ⟨s, startLocals cfg s⟩ <;> rfl

/-- A report of the books is consistent. -/
theorem Ended.consistent {budget : ℤ} {p : Pass n m} {t : SchedulerState n m}
    {out : SchedulerOutput n} (h : Ended whole fair cfg budget p) (hfair : fair)
    (hbudget : budget = cfg.maxNumScheduledTokens) (hrunning : t.running = p.sched.running)
    (hreports : Reports p.locals out) : Consistent cfg p.locals t out := by
  have hkey (r : RequestId) (hr : r ∈ p.locals.numScheduledTokens.keys) :
      r ∈ t.running ∧ r ∉ p.locals.preemptedReqs := by
    have hmem := h.books.running r hr
    rw [hrunning]
    exact ⟨hmem, fun hbad => h.preempted r hbad hmem⟩
  constructor
  · rw [hreports.total, hreports.counts]
    rfl
  · have htokens := h.books.tokens
    unfold totalNumScheduledTokens at htokens
    rw [hreports.counts]
    omega
  · have hinputs := h.books.inputs
    have hnonneg := h.books.inputBudget hfair
    rw [hreports.counts]
    omega
  · intro r hr
    rw [hreports.counts, hreports.drafts, hreports.encoder] at hr
    obtain hr | hr | hr := hr
    · exact hkey r hr
    · obtain ⟨ids, hids⟩ := OrderedDict.mem_keys_iff.mp hr
      obtain ⟨k, hk, -⟩ := h.books.drafts r ids hids
      exact hkey r (OrderedDict.keys_of_mem hk)
    · exact hkey r (h.books.encoder r hr)
  · rw [hreports.counts]
    exact h.books.counts
  · rw [hreports.counts, hreports.drafts]
    intro r ids hids
    obtain ⟨k, hk, hle⟩ := h.books.drafts r ids hids
    exact ⟨k, hk, hle hfair⟩
  · rw [hreports.lists]
    exact h.books.scheduled_nodup

/-- A call keeps the queues in order. Its output is consistent if the requests
can be scheduled within the budgets and scheduling is not paused. -/
theorem schedule_spec (h : Queued whole cfg s) :
    Returns (schedule cfg env) s fun out t => Queued whole cfg t ∧
      (StartsReady cfg env s → s.pauseState ≠ .pausedAll →
        ∃ l, callLocals cfg env s = some l ∧ Consistent cfg l t out) := by
  have hstart : Returns (startCall cfg) s fun _ s₀ => Queued whole cfg s₀ ∧
      s₀.pauseState = s.pauseState := by
    apply returns_startCall
    intro cache
    exact ⟨h.frame {}, rfl⟩
  refine returns_bind ((hstart.and (ensures_run _ _)).weaken ?_)
  rintro _ s₀ ⟨⟨hqueued, hpause⟩, hrun⟩
  rw [Returns, ensures_bind, ensures_runPass, schedulePass, ensures_bind]
  apply ((scheduleLoops_spec hqueued).and (ensures_run _ _)).weaken
  rintro _ p ⟨hended, hloops⟩
  have hlocals : callLocals cfg env s = some p.locals := by
    simp only [callLocals, hrun, hloops]
  -- the assertions leave the state as it is
  have hcheck : Returns (checkConstraints cfg) p fun _ p' => p' = p := by
    refine returns_get (returns_check fun _ => returns_check fun _ => returns_check fun _ =>
      returns_check fun _ => ?_)
    exact (ensures_check ..).mpr ⟨fun _ => rfl, fun _ => trivial⟩
  refine hcheck.mono ?_
  rintro _ _ rfl
  refine (finishCall_spec hended.queued).mono ?_
  rintro out t ⟨ht, hrunning, hreports⟩
  refine ⟨ht, fun hs hpaused => ⟨_, hlocals, ?_⟩⟩
  apply hended.consistent (hs s₀ hrun) _ hrunning hreports
  simp only [startLocals, hpause, hpaused, if_false]

end Vllm.Scheduler
