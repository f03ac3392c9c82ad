import Vllm.RunningPass

/-!
The loop over the waiting requests. It looks at the head of a queue; the request
starts to run, waits for its load, or is put aside for the rest of the call.
Requests that were put aside still count as queued.
-/
namespace Vllm.Scheduler

open Outcome CacheManagers RequestQueue List OrderedDict Option
open StreamingSession (RequestStatus)

variable {n m : ℕ} {sched : SchedulerState n m} {request : SchedRequest} {adm : Admission n m}
  {deferPrefills : Bool} {plan : WaitingPlan}

structure WaitingInv (whole fair : Prop) (cfg : SchedConfig m) (budget : ℤ) (p : Pass n m) :
    Prop where
  queued : Queued whole cfg p.view
  books : Books fair cfg budget p.sched.running p.locals
  nonePreempted : p.locals.preemptedReqs = []
  ordered : fair → ∀ r ∈ p.view.waiting ++ p.view.skippedWaiting, ∀ q,
    p.sched.requests.get? r = some q → ItemsInOrder q.encoderRequest.mmFeatures

structure Considers (cfg : SchedConfig m) (q : QueueName) (r : RequestId) (p : Pass n m) :
    Prop where
  head : peekRequest (q.requests p.sched) = some r
  room : p.sched.running.length < cfg.maxNumRunningReqs

theorem perm_put (q : QueueName) (s : SchedulerState n m) (aside : List RequestId)
    {r : RequestId} {rest : List RequestId} (h : (r :: rest).Perm (q.requests s)) :
    (r :: ((q.put s rest).waiting ++ (aside ++ (q.put s rest).skippedWaiting))).Perm
      (s.waiting ++ (aside ++ s.skippedWaiting)) := by
  cases q with
  | waiting => exact List.Perm.append_right _ h
  | skippedWaiting =>
    change (r :: (s.waiting ++ (aside ++ rest))).Perm _
    apply perm_middle.symm.trans
    apply List.Perm.append_left
    apply perm_middle.symm.trans
    exact List.Perm.append_left _ h

variable {whole fair : Prop} {cfg : SchedConfig m} {env : ScheduleEnv n m} {budget : ℤ}
  {p : Pass n m} {q : QueueName} {r : RequestId} {status status' : RequestStatus}

theorem Considers.mem_view (h : Considers cfg q r p) :
    r ∈ p.view.waiting ++ p.view.skippedWaiting := by
  have hmem := mem_of_head? h.head
  cases q with
  | waiting => exact mem_append_left _ hmem
  | skippedWaiting => exact mem_append_right _ (mem_append_right _ hmem)

theorem Considers.notMem_running (h : Considers cfg q r p)
    (hinv : WaitingInv whole fair cfg budget p) :
    r ∉ p.sched.running := by
  intro hbad
  exact (nodup_append.mp hinv.queued.nodup).2.2 r hbad r h.mem_view rfl

theorem Considers.known (h : Considers cfg q r p) (hinv : WaitingInv whole fair cfg budget p) :
    ∃ request, p.sched.requests.get? r = some request ∧ isFinished request.status = false :=
  hinv.queued.known r (mem_append_right _ h.mem_view)

section
variable (h : WaitingInv whole fair cfg budget p)
include h

/-- Neither the cache nor the encoder manager matters, nor the order in which
the requests wait. -/
theorem WaitingInv.reorder {p' : Pass n m} (hrequests : p'.sched.requests = p.sched.requests)
    (hrunning : p'.sched.running = p.sched.running)
    (hqueues : (p'.view.waiting ++ p'.view.skippedWaiting).Perm
      (p.view.waiting ++ p.view.skippedWaiting))
    (hnum : p'.sched.numWaitingForStreamingInput = p.sched.numWaitingForStreamingInput)
    (hbooks : Books fair cfg budget p.sched.running p'.locals)
    (hpreempted : p'.locals.preemptedReqs = p.locals.preemptedReqs) :
    WaitingInv whole fair cfg budget p' where
  queued := h.queued.congr hrequests hrunning hqueues hnum
  books := by rw [hrunning]; exact hbooks
  nonePreempted := hpreempted.trans h.nonePreempted
  ordered := by
    intro hfair r hr
    rw [hrequests]
    exact h.ordered hfair r (hqueues.mem_iff.mp hr)

theorem WaitingInv.frame {locals : Locals} (hsame : SameQueues p.sched sched)
    (hbooks : Books fair cfg budget p.sched.running locals)
    (hpreempted : locals.preemptedReqs = p.locals.preemptedReqs)
    (haside : locals.stepSkippedWaiting = p.locals.stepSkippedWaiting) :
    WaitingInv whole fair cfg budget ⟨sched, locals⟩ := by
  refine h.reorder hsame.requests hsame.running ?_ hsame.streaming hbooks hpreempted
  simp only [Pass.view, hsame.waiting, hsame.skippedWaiting, haside, List.Perm.refl]

/-- A request that is looked at may change its data and status, as long as it does not run. -/
theorem WaitingInv.restate (hconsiders : Considers cfg q r p) {request' : SchedRequest}
    (hrequest : p.sched.requests.get? r = some request)
    (hid : request'.requestId = request.requestId)
    (hitems : request'.encoderRequest.mmFeatures = request.encoderRequest.mmFeatures)
    (hold : isFinished request.status = false) (hstatus : request'.status ≠ .running)
    (hunfinished : isFinished request'.status = false) (hwaits : request'.waits = request.waits) :
    WaitingInv whole fair cfg budget
      { p with sched := { p.sched with requests := p.sched.requests.set r request' } } := by
  constructor
  · refine h.queued.restate hrequest (hconsiders.notMem_running h) rfl
      (hid.trans (h.queued.ids r request hrequest)) hstatus hunfinished rfl (.refl _) hold ?_
    simp only [Pass.view]
    omega
  · exact h.books
  · exact h.nonePreempted
  · intro hfair x hx y hy
    rw [get?_set] at hy
    split_ifs at hy with hself
    · cases hy
      rw [hitems]
      exact h.ordered hfair r hconsiders.mem_view request hrequest
    · exact h.ordered hfair x hx y hy

omit h in
theorem Considers.frame (h : Considers cfg q r p)
    (hsame : SameQueues p.sched sched) : Considers cfg q r { p with sched } := by
  constructor
  · cases q with
    | waiting => exact (congrArg peekRequest hsame.waiting).trans h.head
    | skippedWaiting => exact (congrArg peekRequest hsame.skippedWaiting).trans h.head
  · rw [hsame.running]
    exact h.room

/-! ### Put aside -/

omit h in
theorem returns_popQueue (h : Considers cfg q r p) {Q : RequestId → Pass n m → Prop}
    (hQ : ∀ rest, (r :: rest).Perm (q.requests p.sched) →
      Q r { p with sched := q.put p.sched rest }) : Returns (popQueue cfg q) p Q := by
  refine returns_get (returns_expect fun ⟨x, rest⟩ hpop => returns_modify ?_)
  obtain rfl : r = x :=
    Option.some.inj (h.head.symm.trans (peekRequest_of_popRequest cfg.policy p.sched.lt hpop))
  exact hQ rest (popRequest_perm cfg.policy p.sched.lt hpop)

omit h in
theorem put_frame (q : QueueName) (s : SchedulerState n m) (rest : List RequestId) :
    (q.put s rest).requests = s.requests ∧ (q.put s rest).running = s.running ∧
      (q.put s rest).numWaitingForStreamingInput = s.numWaitingForStreamingInput := by
  cases q <;> exact ⟨rfl, rfl, rfl⟩

/-- A request put aside leaves its queue but not the scheduler. -/
theorem setAside_spec (hconsiders : Considers cfg q r p) :
    Returns (setAside cfg q r) p fun _ => WaitingInv whole fair cfg budget := by
  refine returns_bind (returns_popQueue hconsiders fun rest hrest => ?_)
  obtain ⟨hrequests, hrunning, hnum⟩ := put_frame q p.sched rest
  refine returns_get (returns_modify (h.reorder hrequests hrunning ?_ hnum { h.books with } rfl))
  have haside := prependRequest_perm cfg.policy (q.put p.sched rest).lt
    p.locals.stepSkippedWaiting r
  apply ((haside.append_right _).append_left _).trans
  exact perm_middle.trans (perm_put q p.sched p.locals.stepSkippedWaiting hrest)
end

/-! ### Promotion and lookup -/

/-- The loop looks at a request of some status, and the invariant holds. -/
structure Looks (whole fair : Prop) (cfg : SchedConfig m) (budget : ℤ) (q : QueueName)
    (r : RequestId) (status : RequestStatus) (p : Pass n m) : Prop where
  inv : WaitingInv whole fair cfg budget p
  considers : Considers cfg q r p
  status : ∀ request, p.sched.requests.get? r = some request → request.status = status

structure Fits (fair : Prop) (cfg : SchedConfig m) (k : ℤ) (l : Locals) : Prop where
  pos : 0 < k
  tokens : fair → k ≤ l.tokenBudget
  inputs : fair → k + cfg.draftSlots ≤ l.inputBudget

theorem splitWaiting_le {k : ℤ} {pad : Bool}
    (hk : 0 < k) : (splitWaiting cfg request adm k pad).1 ≤ k := by
  have hle := alignedSplit_le cfg request k adm.numNewLocalComputedTokens
    adm.numExternalComputedTokens
  rw [max_eq_right (le_of_lt hk)] at hle
  unfold splitWaiting
  dsimp only
  split_ifs
  · exact hk
  · exact hle
  · exact le_refl k

section
variable (h : Looks whole fair cfg budget q r status p)
include h

theorem Looks.frame (hsame : SameQueues p.sched sched) :
    Looks whole fair cfg budget q r status { p with sched } := by
  refine ⟨h.inv.frame hsame h.inv.books rfl rfl, h.considers.frame hsame, ?_⟩
  rw [hsame.requests]
  exact h.status

variable {f : SchedRequest → SchedRequest}

/-- The request that the loop looks at changes, and still waits. Whether it
waits for streaming input does not change. -/
theorem Looks.modifyRequest (hid : ∀ request, (f request).requestId = request.requestId)
    (hitems : ∀ request, (f request).encoderRequest.mmFeatures = request.encoderRequest.mmFeatures)
    (hf : ∀ request, p.sched.requests.get? r = some request → (f request).status = status')
    (hrunning : status' ≠ .running) (hunfinished : isFinished status' = false)
    (hwaits : status' = .waitingForStreamingReq ↔ status = .waitingForStreamingReq) :
    Looks whole fair cfg budget q r status' { p with sched := p.sched.modifyRequest r f } := by
  obtain ⟨request, hrequest, hold⟩ := h.considers.known h.inv
  have hstatus := h.status request hrequest
  have hnew := hf request hrequest
  simp only [SchedulerState.modifyRequest, hrequest]
  refine ⟨?_, ⟨h.considers.head, h.considers.room⟩, ?_⟩
  · apply h.inv.restate h.considers hrequest (hid request) (hitems request) hold
    · rwa [hnew]
    · rwa [hnew]
    · simp only [SchedRequest.waits, hnew, hstatus, hwaits]
  · intro x hx
    rw [get?_set_self] at hx
    cases hx
    exact hnew

theorem Looks.status_ne : status ≠ .running ∧ isFinished status = false := by
  obtain ⟨request, hrequest, hunfinished⟩ := h.considers.known h.inv
  rw [← h.status request hrequest]
  refine ⟨?_, hunfinished⟩
  intro hbad
  exact h.considers.notMem_running h.inv ((h.inv.queued.running r request hrequest).mp hbad)

theorem Looks.modifyData (hid : ∀ request, (f request).requestId = request.requestId)
    (hitems : ∀ request, (f request).encoderRequest.mmFeatures = request.encoderRequest.mmFeatures)
    (hf : ∀ request, (f request).status = request.status) :
    Looks whole fair cfg budget q r status { p with sched := p.sched.modifyRequest r f } :=
  h.modifyRequest hid hitems
    (fun request hrequest => (hf request).trans (h.status request hrequest))
    h.status_ne.1 h.status_ne.2 Iff.rfl

theorem updateWaitingForRemoteKv_spec : Returns (updateWaitingForRemoteKv cfg r) p.sched
      fun _ sched => Looks whole fair cfg budget q r status { p with sched } := by
  refine returns_check fun _ => returns_bind (returns_getRequest fun request _ => returns_get ?_)
  have hcache (failed : Bool) : Returns (cacheReceived cfg request failed)
      p.sched fun _ sched => Looks whole fair cfg budget q r status { p with sched } :=
    returns_ite (fun _ => returns_onCache fun _ _ => h.frame {})
      fun _ => returns_onCache fun _ _ => h.frame {}
  refine (hcache _).bind fun _ sched hlooks => returns_bind ?_
  refine returns_onlyIf (fun _ => ?_) fun _ => ?_
  · have hdata := hlooks.modifyData (f := fun q => { q with numComputedTokens := q.numTokens - 1 })
      (fun _ => rfl) (fun _ => rfl) fun _ => rfl
    exact hdata.frame {}
  · exact hlooks.frame {}

/-- A blocked request is ready: it waits like a new or a preempted request. -/
theorem Looks.promote (hold : status ≠ .waitingForStreamingReq)
    {new : SchedRequest → RequestStatus}
    (hnew : ∀ request, new request = .waiting ∨ new request = .preempted) :
    ∃ status', Looks whole fair cfg budget q r status' { p with
        sched := p.sched.modifyRequest r fun request =>
          { request with status := new request } } ∧
      status' ≠ .waitingForStreamingReq := by
  obtain ⟨current, hcurrent, -⟩ := h.considers.known h.inv
  have hready : new current ≠ .running ∧ isFinished (new current) = false ∧
      new current ≠ .waitingForStreamingReq := by
    obtain heq | heq := hnew current
    all_goals
      rw [heq]
      decide
  refine ⟨new current, ?_, hready.2.2⟩
  refine h.modifyRequest (fun _ => rfl) (fun _ => rfl) (fun request hrequest => ?_) hready.1
    hready.2.1 (iff_of_false hready.2.2 hold)
  cases hcurrent.symm.trans hrequest
  rfl

/-- A request that is ready does not wait for streaming input. -/
theorem tryPromoteBlockedWaitingRequest_spec :
    Returns (onSched (tryPromoteBlockedWaitingRequest cfg env r)) p fun ready p' =>
      ∃ status', Looks whole fair cfg budget q r status' p' ∧
        (ready = true → status' ≠ .waitingForStreamingReq) := by
  have hstays {p' : Pass n m} (hlooks : Looks whole fair cfg budget q r status p') :
      ∃ status', Looks whole fair cfg budget q r status' p' ∧
        (false = true → status' ≠ .waitingForStreamingReq) :=
    ⟨status, hlooks, fun hbad => absurd hbad (by decide)⟩
  refine returns_onSched (returns_bind (returns_getRequest fun request hrequest => returns_get ?_))
  have hstatus := h.status request hrequest
  split
  · next hremote =>
    refine returns_ite (fun _ => hstays h) fun _ => ?_
    refine (updateWaitingForRemoteKv_spec h).bind fun _ sched hlooks => returns_modify ?_
    have hold : status ≠ .waitingForStreamingReq := by rw [← hstatus, hremote]; decide
    have hnew (q : SchedRequest) :
        (if q.numPreemptions ≠ 0 then RequestStatus.preempted else .waiting) = .waiting ∨
          (if q.numPreemptions ≠ 0 then RequestStatus.preempted else .waiting) = .preempted := by
      split
      · exact .inr rfl
      · exact .inl rfl
    obtain ⟨status', hlooks', hne⟩ := hlooks.promote hold hnew
    exact ⟨status', hlooks', fun _ => hne⟩
  · next hgrammar =>
    split
    · exact hstays h
    · exact hstays (h.frame {})
    · have hold : status ≠ .waitingForStreamingReq := by rw [← hstatus, hgrammar]; decide
      obtain ⟨status', hlooks', hne⟩ := h.promote hold fun _ => .inl rfl
      exact ⟨status', hlooks', fun _ => hne⟩
  · exact returns_check fun _ => hstays h
  · trivial

omit h in
theorem returns_truncateComputedBlocks {blocks : Option (Fin m → List (Fin n))} {tokens : ℕ}
    {Q : Option (Fin m → List (Fin n)) → Pass n m → Prop} (h : ∀ blocks, Q blocks p) :
    Returns (truncateComputedBlocks cfg blocks tokens) p Q := by
  refine (returns_forM (fun p' => p' = p) _ ?_ rfl).bind ?_
  · rintro i _ _ rfl
    refine returns_ite (fun _ => ?_) fun _ => returns_check fun _ => ?_
    · exact (ensures_check ..).mpr ⟨fun _ => rfl, fun _ => trivial⟩
    · split
      · rfl
      · exact (ensures_check ..).mpr ⟨fun _ => rfl, fun _ => trivial⟩
  · rintro _ _ rfl
    exact h _

omit h in
theorem returns_connectorHit {Q : Option (LocalHit n m × ℕ × Bool) → Pass n m → Prop}
    (h : ∀ hit, Q hit p) : Returns (connectorHit cfg env r) p Q := by
  rw [connectorHit]
  split
  · exact h none
  · exact returns_ite (fun _ => returns_bind (returns_truncateComputedBlocks fun _ => h _))
      fun _ => h _

/-- Lookups change no queue. -/
theorem lookupComputed_spec (hid : request.requestId = r) :
    Returns (lookupComputed cfg env request) p
      fun _ => Looks whole fair cfg budget q r status := by
  refine returns_ite (fun _ => ?_) fun _ => h
  have hhit : Returns (if cfg.hasConnector = true then connectorHit cfg env request.requestId
      else pure (some (env.localHit request.requestId, 0, false))) p
      fun _ => Looks whole fair cfg budget q r status :=
    returns_ite (fun _ => returns_connectorHit fun _ => h) fun _ => h
  refine hhit.bind fun found p' hlooks => returns_bind (returns_onSched ?_)
  rw [Returns, Scheduler.modifyRequest, ensures_modify, hid]
  have hdata := hlooks.modifyData (f := fun q => { q with
      sharedPrefixBoundary :=
        ((found.map fun f => f.1).getD (env.localHit r)).sharedPrefixBoundary })
    (fun _ => rfl) (fun _ => rfl) fun _ => rfl
  split
  · exact hdata
  · exact returns_check fun _ => returns_ite (fun _ => hdata) fun _ => hdata

/-! ### Plans and slots -/

section
variable (hordered : fair → ItemsInOrder request.encoderRequest.mmFeatures)
include hordered

theorem finishPlan_spec {computed k : ℤ} {pad : Bool} (htokens : k ≤ p.locals.tokenBudget)
    (hinputs : k + cfg.draftSlots ≤ p.locals.inputBudget) :
    Returns (finishPlan cfg env request computed k pad) p fun plan p' =>
      Looks whole fair cfg budget q r status p' ∧
        ∀ x ∈ plan, Fits fair cfg x.numNewTokens p'.locals := by
  refine returns_bind (returns_planEncoderInputs fun pass encoder hpass => ⟨h.frame {}, ?_⟩)
  have hle := reservePrefillLookahead_le cfg request computed pass.numNewTokens
  have hnonneg := reservePrefillLookahead_nonneg cfg request computed pass.numNewTokens
  intro x hx
  split_ifs at hx with hzero
  · exact absurd hx (not_mem_none x)
  · obtain rfl := mem_some.mp hx
    refine ⟨by dsimp only; omega, fun hfair => ?_, fun hfair => ?_⟩ <;>
      have hfits := hpass (hordered hfair) <;> dsimp only <;> omega

/-- A plan fits the budgets. -/
theorem planLocal_spec : Returns (planLocal cfg env request adm) p fun plan p' =>
      Looks whole fair cfg budget q r status p' ∧
        ∀ x ∈ plan, Fits fair cfg x.numNewTokens p'.locals := by
  have hnone : ∀ x ∈ (none : Option WaitingPlan), Fits fair cfg x.numNewTokens p.locals :=
    fun x hx => absurd hx (not_mem_none x)
  refine returns_get (returns_ite (fun _ => ⟨h, hnone⟩) fun _ => ?_)
  refine returns_ite (fun _ => ⟨h, hnone⟩) fun _ => returns_check fun hpos => ?_
  generalize hk : min _ (min p.locals.tokenBudget (p.locals.inputBudget - cfg.draftSlots)) = k
    at hpos ⊢
  have hsplit : (splitWaiting cfg request adm k (padsSpecDecode cfg p.locals
      adm.numComputedTokens (request.numTokens - adm.numComputedTokens))).1 ≤ k :=
    splitWaiting_le hpos
  rw [Returns, ensures_ite]
  exact ⟨fun _ => ⟨h, hnone⟩, fun _ => finishPlan_spec h hordered (by omega) (by omega)⟩

theorem planWaiting_spec : Returns (planWaiting cfg env deferPrefills request adm) p fun plan p' =>
      Looks whole fair cfg budget q r status p' ∧
        ∀ x ∈ plan, adm.loadKvAsync = false → Fits fair cfg x.numNewTokens p'.locals := by
  refine returns_get (returns_ite (fun hasync => returns_check fun _ => ⟨h, fun x _ hbad => ?_⟩)
    fun _ => returns_ite (fun _ => ⟨h, fun x hx => absurd hx (not_mem_none x)⟩) fun _ => ?_)
  · exact absurd (hasync.symm.trans hbad) (by decide)
  · exact (planLocal_spec h hordered).mono fun plan p' hplan =>
      ⟨hplan.1, fun x hx _ => hplan.2 x hx⟩
end

omit h in
theorem returns_sumRemainingBlocks {s : SchedulerState n m} (rs : List RequestId) :
    Returns (sumRemainingBlocks cfg rs) s fun _ t => ∃ cache, t = { s with cache } := by
  induction rs generalizing s with
  | nil => exact ⟨s.cache, rfl⟩
  | cons r rs ih =>
    refine returns_bind (returns_bind (returns_getRequest fun request _ => ?_))
    refine returns_onCache fun _ cache => ih.bind ?_
    rintro _ _ ⟨cache', rfl⟩
    exact ⟨cache', rfl⟩

/-- Slots for a waiting request change neither queues nor budgets. -/
theorem allocateWaiting_spec {k : ℤ} : Returns (allocateWaiting cfg r adm k) p fun _ p' =>
      Looks whole fair cfg budget q r status p' ∧ p'.locals = p.locals := by
  have hreserved : Returns
      (if adm.loadKvAsync = true then onSched (inflightPrefillReservedBlocks cfg) else pure 0) p
      fun _ p' => ∃ cache, p' = { p with sched := { p.sched with cache } } := by
    refine returns_ite (fun _ => returns_onSched (returns_get ?_)) fun _ => ⟨p.sched.cache, rfl⟩
    refine (returns_sumRemainingBlocks _).mono ?_
    rintro _ _ ⟨cache, rfl⟩
    exact ⟨cache, rfl⟩
  refine hreserved.bind ?_
  rintro reserved _ ⟨cache, rfl⟩
  refine returns_bind (returns_getRequestOfPass fun request _ => returns_get ?_)
  exact returns_onSched (returns_onCache fun _ cache' => ⟨h.frame {}, rfl⟩)

/-! ### Admission -/

/-- A request that waits for its load is put aside with another status. -/
theorem awaitRemoteKvs_spec (hstatus : status ≠ .waitingForStreamingReq) :
    Returns (awaitRemoteKvs cfg q r adm) p fun _ => WaitingInv whole fair cfg budget := by
  have hwaits : Looks whole fair cfg budget q r .waitingForRemoteKvs
      { p with sched := p.sched.modifyRequest r fun request => { request with
        status := .waitingForRemoteKvs
        numComputedTokens := adm.numComputedTokens } } :=
    h.modifyRequest (fun _ => rfl) (fun _ => rfl) (fun _ _ => rfl) (by decide) rfl
      (iff_of_false (by decide) hstatus)
  refine returns_bind (returns_onSched ?_)
  rw [Returns, Scheduler.modifyRequest, ensures_modify]
  refine (setAside_spec hwaits.inv hwaits.considers).bind fun _ p' hinv => ?_
  exact hinv.frame {} hinv.books rfl rfl

omit h in
/-- A request that starts is listed once, as new or as resumed. -/
theorem returns_recordStart {Q : PUnit → Pass n m → Prop}
    (h : ∀ new resumed, (p.locals.scheduledRunningReqs ++ (new ++ resumed)).Perm
        (request.requestId :: p.locals.scheduled) →
      Q ⟨⟩ { p with locals := { p.locals with
        scheduledNewReqs := new, scheduledResumedReqs := resumed } }) :
    Returns (recordStart request) p Q := by
  rw [recordStart]
  split
  · apply h
    rw [append_assoc]
    apply List.Perm.trans _ perm_middle
    exact List.Perm.append_left _ perm_middle
  · apply h
    rw [← append_assoc, ← append_assoc,
      append_assoc _ _ p.locals.scheduledResumedReqs]
    exact perm_append_singleton _ _
  · trivial

structure Started (whole fair : Prop) (cfg : SchedConfig m) (budget : ℤ) (r : RequestId) (k : ℤ)
    (p : Pass n m) : Prop where
  inv : WaitingInv whole fair cfg budget p
  entry : (r, k) ∈ p.locals.numScheduledTokens.entries

section
variable (hstatus : status ≠ .waitingForStreamingReq)
include hstatus

/-- A planned request leaves its queue and runs. -/
theorem Looks.start {rest : List RequestId} {k : ℤ} {l : Locals} {computed : ℤ}
    (hrest : (r :: rest).Perm (q.requests p.sched)) (hfits : Fits fair cfg k p.locals)
    (hrequest : p.sched.requests.get? r = some request)
    (hrequests : sched.requests = p.sched.requests.set r
      { request with status := .running, numComputedTokens := computed })
    (hsched : sched = { q.put p.sched rest with
      running := p.sched.running ++ [r], requests := sched.requests })
    (hscheduled : l.scheduled.Perm (r :: p.locals.scheduled))
    (hcounts : l.numScheduledTokens = p.locals.numScheduledTokens.set r k)
    (htokens : l.tokenBudget = p.locals.tokenBudget - k)
    (hinputs : l.inputBudget = p.locals.inputBudget - (k + cfg.draftSlots))
    (hdrafts : l.scheduledSpecDecodeTokens = p.locals.scheduledSpecDecodeTokens)
    (hencoder : l.scheduledEncoderInputs = p.locals.scheduledEncoderInputs)
    (hpreempted : l.preemptedReqs = p.locals.preemptedReqs)
    (haside : l.stepSkippedWaiting = p.locals.stepSkippedWaiting) :
    Started whole fair cfg budget r k ⟨sched, l⟩ := by
  obtain ⟨-, -, hnum⟩ := put_frame q p.sched rest
  have hkeys : r ∉ p.locals.numScheduledTokens.keys := fun hbad =>
    h.considers.notMem_running h.inv (h.inv.books.running r hbad)
  have hrunning : sched.running = p.sched.running ++ [r] := by rw [hsched]
  have hview : (r :: (sched.waiting ++ (l.stepSkippedWaiting ++ sched.skippedWaiting))).Perm
      (p.view.waiting ++ p.view.skippedWaiting) := by
    rw [hsched, haside]
    exact perm_put q p.sched p.locals.stepSkippedWaiting hrest
  refine ⟨⟨?_, ?_, hpreempted.trans h.inv.nonePreempted, ?_⟩, ?_⟩
  · refine h.inv.queued.start hrequest hrequests (h.inv.queued.ids r request hrequest) rfl hrunning
      hview ?_ h.considers.room ?_
    · rw [Pass.view, hsched]
      exact hnum
    · rwa [h.status request hrequest]
  · refine h.inv.books.record hkeys hfits.pos hfits.tokens hfits.inputs hcounts htokens hinputs
      hscheduled (.inl hdrafts) ?_ ?_ ?_
    · rw [hencoder]
      exact fun x hx => .inr hx
    · rw [hrunning]
      exact fun x hx => mem_append_left _ hx
    · rw [hrunning]
      exact mem_append_right _ (mem_singleton_self r)
  · intro hfair x hx y hy
    rw [hrequests, get?_set] at hy
    split_ifs at hy with hself
    · cases hy
      exact h.inv.ordered hfair r h.considers.mem_view request hrequest
    · exact h.inv.ordered hfair x (hview.mem_iff.mp (mem_cons_of_mem r hx)) y hy
  · rw [hcounts]
    exact mem_entries_set.mpr (.inl rfl)

omit h in
omit hstatus in
theorem finishStart_spec
    (h : Started whole fair cfg budget request.requestId plan.numNewTokens p) :
    Returns (finishStart cfg request adm plan) p fun _ => WaitingInv whole fair cfg budget := by
  have hcommit {p : Pass n m}
      (h : Started whole fair cfg budget request.requestId plan.numNewTokens p) :
      Returns (commitEncoderInputs request plan.pass) p
        fun _ => WaitingInv whole fair cfg budget :=
    returns_commitEncoderInputs fun _ _ _ hinputs =>
      h.inv.frame {} (h.inv.books.setEncoder (keys_of_mem h.entry) hinputs) rfl rfl
  refine Returns.bind (P := fun _ => Started whole fair cfg budget request.requestId
    plan.numNewTokens) (returns_onlyIf (fun _ => returns_check fun hsize => ⟨?_, h.entry⟩)
    fun _ => h) fun _ p' hstarted => returns_bind (returns_onlyIf (fun _ => ?_) fun _ => ?_)
  · refine h.inv.frame {} (h.inv.books.setDrafts h.entry ?_) rfl rfl
    rw [length_replicate]
    omega
  · exact hcommit ⟨hstarted.inv.frame {} hstarted.inv.books rfl rfl, hstarted.entry⟩
  · exact hcommit hstarted

theorem startRunning_spec (hid : request.requestId = r)
    (hfits : Fits fair cfg plan.numNewTokens p.locals) :
    Returns (startRunning cfg q request adm plan) p
      fun _ => WaitingInv whole fair cfg budget := by
  obtain ⟨current, hcurrent, -⟩ := h.considers.known h.inv
  subst hid
  refine returns_bind (returns_popQueue h.considers fun rest hrest => returns_modify ?_)
  obtain ⟨hrequests, hrunning, -⟩ := put_frame q p.sched rest
  refine returns_bind (returns_recordStart fun new resumed hscheduled => returns_modify ?_)
  refine returns_bind (returns_onSched ?_)
  rw [Returns, Scheduler.modifyRequest, ensures_modify]
  simp only [SchedulerState.modifyRequest, hrequests, hcurrent, hrunning]
  apply finishStart_spec
  exact h.start hstatus hrest hfits hcurrent rfl rfl hscheduled rfl rfl rfl rfl rfl rfl rfl

theorem admitRequest_spec (hid : request.requestId = r)
    (hfits : adm.loadKvAsync = false → Fits fair cfg plan.numNewTokens p.locals) :
    Returns (admitRequest cfg q request adm plan) p
      fun _ => WaitingInv whole fair cfg budget := by
  subst hid
  refine (allocateWaiting_spec h).bind fun taken p' ⟨hlooks, hlocals⟩ => returns_ite (fun _ => ?_)
    fun _ => returns_ite (fun _ => ?_) fun hsync => ?_
  · refine returns_bind (returns_onlyIf (fun _ => ?_) fun _ => hlooks.inv)
    exact returns_onSched (returns_onEncoder fun _ _ =>
      hlooks.inv.frame {} hlooks.inv.books rfl rfl)
  · exact returns_bind (awaitRemoteKvs_spec hlooks hstatus)
  · refine returns_bind (startRunning_spec hlooks hstatus rfl ?_)
    rw [hlocals]
    exact hfits (Bool.eq_false_of_not_eq_true hsync)

/-- Whatever becomes of the request, the invariant holds again. -/
theorem considerRequest_spec : Returns (considerRequest cfg env deferPrefills q r) p
      fun _ => WaitingInv whole fair cfg budget := by
  refine returns_bind (returns_getRequestOfPass fun request hrequest => returns_get ?_)
  have hid : request.requestId = r := h.inv.queued.ids r request hrequest
  have hordered := fun hfair => h.inv.ordered hfair r h.considers.mem_view request hrequest
  refine returns_ite (fun _ => setAside_spec h.inv h.considers) fun _ => ?_
  refine returns_ite (fun _ => setAside_spec h.inv h.considers) fun _ => ?_
  refine (lookupComputed_spec h hid).bind fun found p' hlooks => ?_
  cases found with
  | none => exact setAside_spec hlooks.inv hlooks.considers
  | some adm =>
    refine (planWaiting_spec hlooks hordered).bind fun plan p'' ⟨hlooks', hfits⟩ => ?_
    cases plan with
    | none => exact hlooks'.inv
    | some plan => exact admitRequest_spec hlooks' hstatus hid (hfits plan rfl)
end

end

/-! ### The loop -/

/-- One pass looks at the head of one queue. -/
theorem waitingStep_spec (h : WaitingInv whole fair cfg budget p) :
    Returns (waitingStep cfg env deferPrefills) p fun _ => WaitingInv whole fair cfg budget := by
  refine returns_get (returns_ite (fun _ => h) fun _ => returns_ite (fun _ => h) fun hroom => ?_)
  refine returns_expect fun q _ => returns_expect fun r hhead => ?_
  -- sessions that wait for input are counted as running, so there is room
  have hnonneg : 0 ≤ p.sched.numWaitingForStreamingInput := h.queued.streaming_nonneg
  have hconsiders : Considers cfg q r p := ⟨hhead, by omega⟩
  refine returns_bind (returns_getRequestOfPass fun request hrequest => ?_)
  have hlooks : Looks whole fair cfg budget q r request.status p :=
    ⟨h, hconsiders, fun x hx => congrArg _ (Option.some.inj (hx.symm.trans hrequest))⟩
  have hready : Returns (if isBlockedWaitingStatus request.status = true then
      onSched (tryPromoteBlockedWaitingRequest cfg env r) else pure true) p
      fun ready p' => ∃ status', Looks whole fair cfg budget q r status' p' ∧
        (ready = true → status' ≠ .waitingForStreamingReq) := by
    refine returns_ite (fun _ => tryPromoteBlockedWaitingRequest_spec hlooks) fun hblocked => ?_
    refine ⟨_, hlooks, fun _ hbad => hblocked ?_⟩
    rw [hbad]
    rfl
  refine hready.bind fun ready p' ⟨status, hlooks', hstatus⟩ => returns_ite ?_ fun _ => ?_
  · exact fun hok => considerRequest_spec hlooks' (hstatus hok)
  · exact setAside_spec hlooks'.inv hlooks'.considers

/-- The loop over the waiting requests keeps its invariant to the end. -/
theorem waitingLoop_spec (deferPrefills : Bool) (fuel : ℕ)
    (h : WaitingInv whole fair cfg budget p) :
    Returns (waitingLoop cfg env deferPrefills fuel) p
      fun _ => WaitingInv whole fair cfg budget := by
  induction fuel generalizing p with
  | zero => exact h
  | succ fuel ih =>
    refine returns_get (returns_ite (fun _ => (waitingStep_spec h).bind ?_) fun _ => h)
    intro control p' hinv
    cases control with
    | next => exact ih hinv
    | stop => exact hinv

end Vllm.Scheduler
