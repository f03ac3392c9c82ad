import Vllm.FinishedRequests

/-!
The queues while the output of a step is processed. A request that stops stays
in its queue until all outputs have been looked at, and it may have been queued
again by then; the queues are described without the requests stopped so far. A
session that stops while it does not run is queued and then taken out again, so
that it is lost: that nothing is lost asks that this does not happen.
-/
namespace Vllm.Scheduler

open OrderedDict

open Outcome BlockHashing CacheManagers KVCacheManager EncoderCache RequestQueue SchedulerState List
open StreamingSession (RequestStatus)

variable {n m : ℕ} {whole : Prop} {cfg : SchedConfig m} {s t : SchedulerState n m}
  {r : RequestId} {stopped : StoppedReqs}
  {q request : SchedRequest} {status : RequestStatus} {res : RunnerOutput n} {isStale : Bool}
  {out : SchedulerOutput n}

def StoppedReqs.add (stopped : StoppedReqs) (r : RequestId) (status : RequestStatus) :
    StoppedReqs :=
  if status = .running then
    { stopped with stoppedRunningReqs := stopped.stoppedRunningReqs ++ [r] }
  else
    { stopped with stoppedPreemptedReqs := stopped.stoppedPreemptedReqs ++ [r] }

def SchedulerState.without (s : SchedulerState n m) (stopped : StoppedReqs) : SchedulerState n m :=
  { s with
    running := s.running.filter (· ∉ stopped.stoppedRunningReqs)
    waiting := s.waiting.filter (· ∉ stopped.stoppedPreemptedReqs)
    skippedWaiting := s.skippedWaiting.filter (· ∉ stopped.stoppedPreemptedReqs) }

structure Processing (whole : Prop) (cfg : SchedConfig m) (stopped : StoppedReqs)
    (s : SchedulerState n m) : Prop where
  queued : Queued whole cfg (s.without stopped)
  nodup : s.running.Nodup

namespace Processing

theorem start (h : Queued whole cfg s) : Processing whole cfg ⟨[], []⟩ s := by
  refine ⟨?_, h.nodup.of_append_left⟩
  apply Queued.congr h
  · rfl
  · simp [without]
  · simp [without]
  · rfl

section
variable (h : Processing whole cfg stopped s)
include h

/-- The requests listed as stopped leave the queues in one go. -/
theorem removeStopped : Queued whole cfg (removeStopped cfg stopped s) := by
  have hqueue (queue : List RequestId) : (if stopped.stoppedPreemptedReqs = [] then queue
        else removeRequests cfg.policy s.lt queue fun r => r ∈ stopped.stoppedPreemptedReqs).Perm
        (queue.filter (· ∉ stopped.stoppedPreemptedReqs)) := by
    split_ifs with hnil
    · simp [hnil]
    · apply (removeRequests_perm ..).trans
      simp only [decide_not]
      exact List.Perm.refl _
  apply Queued.congr h.queued
  · rfl
  · exact removeAll_eq_filter h.nodup _
  · exact (hqueue s.waiting).append (hqueue s.skippedWaiting)
  · rfl

theorem frame (hsame : SameQueues s t) : Processing whole cfg stopped t := by
  refine ⟨h.queued.frame ⟨hsame.requests, ?_, ?_, ?_, hsame.streaming⟩, hsame.running ▸ h.nodup⟩
  · simp only [without, hsame.running]
  · simp only [without, hsame.waiting]
  · simp only [without, hsame.skippedWaiting]

theorem setData {q' : SchedRequest} (hq : s.requests.get? r = some q)
    (hid : q'.requestId = q.requestId) (hstatus : q'.status = q.status) :
    Processing whole cfg stopped { s with requests := s.requests.set r q' } :=
  ⟨h.queued.setData hq hid hstatus, h.nodup⟩

theorem modifyRequest (r : RequestId) {f : SchedRequest → SchedRequest}
    (hf : ∀ q, (f q).requestId = q.requestId ∧ (f q).status = q.status) :
    Processing whole cfg stopped (s.modifyRequest r f) := by
  unfold SchedulerState.modifyRequest
  split
  · exact h
  · next q hq => exact h.setData hq (hf q).1 (hf q).2

/-- Listing one more stopped request takes it out of the queues that are left in the end. -/
theorem queues_without_add (hq : s.requests.get? r = some q) :
    (s.without (stopped.add r q.status)).queues = (s.without stopped).queues.filter (· ≠ r) := by
  have hrunning := h.queued.running r q hq
  have hdisjoint := (nodup_append.mp h.queued.nodup).2.2
  have hself (l : List RequestId) (hl : r ∉ l) : l.filter (· ≠ r) = l := by
    apply filter_eq_self.mpr
    intro x hx
    simp only [ne_eq, decide_not, Bool.not_eq_eq_eq_not, Bool.not_true, decide_eq_false_iff_not]
    rintro rfl
    exact hl hx
  have hsplit (l gone : List RequestId) :
      l.filter (· ∉ gone ++ [r]) = (l.filter (· ∉ gone)).filter (· ≠ r) := by
    rw [filter_filter]
    apply filter_congr
    intro x _
    simp only [mem_append, mem_singleton, not_or, ne_eq, Bool.decide_and]
    exact Bool.and_comm _ _
  unfold StoppedReqs.add
  by_cases hstatus : q.status = .running
  · have hmem := hrunning.mp hstatus
    have hnot : r ∉ (s.without stopped).waiting ++ (s.without stopped).skippedWaiting :=
      fun hbad => hdisjoint r hmem r hbad rfl
    rw [if_pos hstatus, queues, queues, filter_append, hself _ hnot]
    simp only [without, hsplit]
  · have hnot : r ∉ (s.without stopped).running := fun hbad => hstatus (hrunning.mpr hbad)
    rw [if_neg hstatus, queues, queues, filter_append, filter_append, hself _ hnot]
    simp only [without, hsplit]
end

end Processing

structure Stopped (whole : Prop) (cfg : SchedConfig m) (stopped : StoppedReqs) (r : RequestId)
    (s : SchedulerState n m) : Prop where
  processing : Processing whole cfg stopped s
  outside : r ∉ (s.without stopped).queues
  finished : ∃ q, s.requests.get? r = some q ∧ isFinished q.status = true

/-- A request that stops is counted as out of the queues from now on. -/
theorem Processing.stop (h : Processing whole cfg stopped s)
    (q' : SchedRequest) (hq : s.requests.get? r = some q) (hid : q'.requestId = q.requestId)
    (hfinished : isFinished q'.status = true)
    (hcounted : whole → q.status ≠ .waitingForStreamingReq) :
    Stopped whole cfg (stopped.add r q.status) r
      { s with requests := s.requests.set r q' } := by
  have hqueues := h.queues_without_add hq
  have hmem (x : RequestId) : x ∈ (s.without (stopped.add r q.status)).queues ↔
      x ∈ (s.without stopped).queues ∧ x ≠ r := by
    rw [hqueues, mem_filter]
    simp
  have hnot : r ∉ (s.without (stopped.add r q.status)).queues := fun hbad =>
    ((hmem r).mp hbad).2 rfl
  have hstatus := status_ne_of_finished hfinished
  have hwaits := Queued.waits_of_finished hfinished
  have hnonneg := q.waits_nonneg
  -- of the other running requests none leaves
  have hrunning (x : RequestId) (hx : x ≠ r) :
      x ∈ (s.without (stopped.add r q.status)).running ↔ x ∈ (s.without stopped).running := by
    unfold StoppedReqs.add
    split_ifs <;> simp [without, hx]
  refine ⟨⟨?_, h.nodup⟩, hnot, q', get?_set_self, hfinished⟩
  refine h.queued.update hq rfl (hid.trans (h.queued.ids r q hq)) ?_
    (fun x hx => (hmem x).trans (and_iff_left hx)) hrunning
    (iff_of_false hstatus fun hbad => hnot (mem_append_left _ hbad))
    (fun hbad => absurd hbad hnot)
    (fun _ hbad => absurd (hfinished.symm.trans hbad) (by decide)) ?_ ?_ ?_
  · change (s.without (stopped.add r q.status)).queues.Nodup
    rw [hqueues]
    exact h.queued.nodup.filter _
  · change s.numWaitingForStreamingInput - q.waits + q'.waits ≤ s.numWaitingForStreamingInput
    omega
  · intro hwhole
    have hold := SchedRequest.waits_of_ne (hcounted hwhole)
    change s.numWaitingForStreamingInput = s.numWaitingForStreamingInput - q.waits + q'.waits
    omega
  · have hsub : (s.without (stopped.add r q.status)).running.length ≤
        (s.without stopped).running.length := by
      apply List.Sublist.length_le
      unfold StoppedReqs.add
      split_ifs
      · apply monotone_filter_right
        intro x
        simp only [mem_append, not_or, decide_eq_true_eq]
        exact fun hx => hx.1
      · exact List.Sublist.refl _
    exact hsub.trans h.queued.capacity

/-! ### The end of a stopped request -/

section
variable (h : Stopped whole cfg stopped r s)
include h

theorem Stopped.setFinished (q' : SchedRequest) (hq : s.requests.get? r = some q)
    (hid : q'.requestId = q.requestId) (hfinished : isFinished q'.status = true) :
    Stopped whole cfg stopped r { s with requests := s.requests.set r q' } := by
  obtain ⟨x, hx, hold⟩ := h.finished
  obtain rfl : x = q := Option.some.inj (hx.symm.trans hq)
  have hstatus := status_ne_of_finished hfinished
  have hwaits := Queued.waits_of_finished hfinished
  have hwaits' := Queued.waits_of_finished hold
  refine ⟨⟨?_, h.processing.nodup⟩, h.outside, q', get?_set_self, hfinished⟩
  have hqueued := h.processing.queued
  refine hqueued.update hq rfl (hid.trans (hqueued.ids r x hq)) hqueued.nodup
    (fun x _ => Iff.rfl) (fun x _ => Iff.rfl)
    (iff_of_false hstatus fun hbad => h.outside (mem_append_left _ hbad))
    (fun hbad => absurd hbad h.outside)
    (fun _ hbad => absurd (hfinished.symm.trans hbad) (by decide)) ?_ ?_ hqueued.capacity
  · change s.numWaitingForStreamingInput - x.waits + q'.waits ≤ s.numWaitingForStreamingInput
    omega
  · intro _
    change s.numWaitingForStreamingInput = s.numWaitingForStreamingInput - x.waits + q'.waits
    omega

/-- It waits again, in one of the queues. If it was not running, the entry is
taken out with the stopped requests. -/
theorem Stopped.requeue (q' : SchedRequest) (hq : s.requests.get? r = some q)
    (hid : q'.requestId = q.requestId) (hunfinished : isFinished q'.status = false)
    (hstatus : q'.status ≠ .running) (hrequests : t.requests = s.requests.set r q')
    (hrunning : t.running = s.running)
    (hwaiting : (t.waiting ++ t.skippedWaiting).Perm (r :: (s.waiting ++ s.skippedWaiting)))
    (hnum : t.numWaitingForStreamingInput = s.numWaitingForStreamingInput + q'.waits)
    (hkept : whole → r ∉ stopped.stoppedPreemptedReqs) : Processing whole cfg stopped t := by
  obtain ⟨x, hx, hold⟩ := h.finished
  obtain rfl : x = q := Option.some.inj (hx.symm.trans hq)
  have hwaits := Queued.waits_of_finished hold
  have hqueued := h.processing.queued
  have hrun : (t.without stopped).running = (s.without stopped).running := by
    simp only [without, hrunning]
  have hrest : ((t.without stopped).waiting ++ (t.without stopped).skippedWaiting).Perm
      ((r :: (s.waiting ++ s.skippedWaiting)).filter (· ∉ stopped.stoppedPreemptedReqs)) := by
    simp only [without]
    rw [← filter_append]
    exact hwaiting.filter _
  have hperm : (t.without stopped).queues.Perm
      (if r ∈ stopped.stoppedPreemptedReqs then (s.without stopped).queues
        else r :: (s.without stopped).queues) := by
    unfold queues
    rw [hrun]
    apply (hrest.append_left _).trans
    rw [filter_cons]
    split_ifs with hgone hin
    · exact absurd hin (by simpa using hgone)
    · rw [filter_append]
      exact perm_middle
    · rw [filter_append]
      exact List.Perm.refl _
    · exact absurd (by simpa using hgone) ‹_›
  have hmem (x : RequestId) (hx : x ≠ r) :
      x ∈ (t.without stopped).queues ↔ x ∈ (s.without stopped).queues := by
    rw [hperm.mem_iff]
    split_ifs
    · exact Iff.rfl
    · rw [mem_cons]
      exact or_iff_right hx
  refine ⟨?_, hrunning ▸ h.processing.nodup⟩
  refine hqueued.update hq hrequests (hid.trans (hqueued.ids r x hq)) ?_ hmem ?_ ?_
    (fun _ => hunfinished) ?_ ?_ ?_ ?_
  · apply hperm.nodup_iff.mpr
    split_ifs
    · exact hqueued.nodup
    · exact nodup_cons.mpr ⟨h.outside, hqueued.nodup⟩
  · intro x _
    rw [hrun]
  · rw [hrun]
    exact iff_of_false hstatus fun hbad => h.outside (mem_append_left _ hbad)
  · intro hwhole _
    rw [hperm.mem_iff, if_neg (hkept hwhole)]
    exact mem_cons_self
  · change s.numWaitingForStreamingInput - x.waits + q'.waits ≤ t.numWaitingForStreamingInput
    omega
  · intro _
    change t.numWaitingForStreamingInput = s.numWaitingForStreamingInput - x.waits + q'.waits
    omega
  · rw [hrun]
    exact hqueued.capacity

/-- Freeing a stopped request takes its data away and nothing else. -/
theorem Stopped.freeRequest {delaysFree : RequestId → Bool} {delayFreeBlocks : Bool} :
    Returns (freeRequest cfg delaysFree r delayFreeBlocks) s
      fun _ => Processing whole cfg stopped := by
  apply returns_freeRequest
  intro request cache deferredFrees encoder requests hrequest hfinished hrequests
  obtain rfl | rfl := hrequests
  · exact h.processing.frame {}
  · have herase : Processing whole cfg stopped { s with requests := s.requests.erase r } :=
      ⟨h.processing.queued.erase hrequest hfinished, h.processing.nodup⟩
    exact herase.frame {}

variable {Q : PUnit → SchedulerState n m → Prop}

omit h in
theorem returns_enqueueWaitingRequest (h : ∀ waiting skippedWaiting,
      (waiting ++ skippedWaiting).Perm (r :: (s.waiting ++ s.skippedWaiting)) →
      Q ⟨⟩ { s with waiting, skippedWaiting }) :
    Returns (enqueueWaitingRequest cfg r status) s Q := by
  rw [Returns, enqueueWaitingRequest, ensures_modify]
  split_ifs
  · apply h s.waiting
    apply ((addRequest_perm ..).append_left _).trans
    exact perm_middle
  · apply h _ s.skippedWaiting
    exact (addRequest_perm ..).append_right _

omit h in
theorem continued_frame {continued : SchedRequest} {update : SessionUpdate}
    (h : request.continued cfg.hasher update = .ok continued) :
    continued.requestId = request.requestId ∧ continued.status = .waiting := by
  unfold SchedRequest.continued StreamingSession.updateRequestAsSession at h
  split at h
  · exact absurd h (by simp [bind, Except.bind])
  · simp only [bind, Except.bind, pure, Except.pure, Except.ok.injEq] at h
    rw [← h]
    exact ⟨rfl, rfl⟩

/-- A session that stops waits for input or goes on with an update; it must not
be among the stopped requests that are taken out of the waiting queues. -/
theorem handleStoppedRequest_spec
    (hkept : whole → ∀ q, s.requests.get? r = some q → q.resumable = true →
      r ∉ stopped.stoppedPreemptedReqs) :
    Returns (handleStoppedRequest cfg r) s fun finished t =>
      (finished = true → Stopped whole cfg stopped r t) ∧
        (finished = false → Processing whole cfg stopped t) := by
  refine returns_bind (returns_getRequest fun request hrequest => returns_ite
    (fun _ => ⟨fun _ => h, fun hbad => absurd hbad (by decide)⟩) fun hresumable => ?_)
  have hkept' := fun hwhole =>
    hkept hwhole request hrequest (Bool.eq_true_of_not_eq_false hresumable)
  obtain ⟨_, hq, hfinished⟩ := h.finished
  cases hrequest.symm.trans hq
  have hqueue (queue : List (Option SessionUpdate)) : Stopped whole cfg stopped r
      { s with requests := s.requests.set r { request with streamingQueue := some queue } } :=
    h.setFinished _ hrequest rfl hfinished
  split
  · refine returns_modify (returns_modify ?_)
    simp only [SchedulerState.modifyRequest, hrequest]
    refine returns_bind (returns_enqueueWaitingRequest fun waiting skippedWaiting hwaiting =>
      ⟨fun hbad => absurd hbad (by decide), fun _ => ?_⟩)
    exact h.requeue { request with status := .waitingForStreamingReq } hrequest rfl rfl
      (by simp) rfl rfl hwaiting rfl hkept'
  · refine returns_modify ?_
    simp only [SchedulerState.modifyRequest, hrequest]
    exact ⟨fun _ => hqueue _, fun hbad => absurd hbad (by decide)⟩
  · next update queue _ =>
    refine returns_modify ?_
    simp only [SchedulerState.modifyRequest, hrequest]
    refine returns_bind (returns_bind (returns_getRequest fun current hcurrent => ?_))
    cases get?_set_self.symm.trans hcurrent
    split
    · trivial
    · next continued hcontinued =>
      obtain ⟨hid, hstatus⟩ := continued_frame hcontinued
      have hcount : request.status ≠ .waitingForStreamingReq := by
        intro hbad
        rw [hbad] at hfinished
        exact absurd hfinished (by decide)
      rw [Returns, ensures_modify]
      refine returns_bind (returns_enqueueWaitingRequest fun waiting skippedWaiting hwaiting =>
        ⟨fun hbad => absurd hbad (by decide), fun _ => ?_⟩)
      refine (hqueue queue).requeue continued get?_set_self hid (by rw [hstatus]; rfl)
        (by rw [hstatus]; decide) rfl rfl hwaiting ?_ hkept'
      simp only [if_neg hcount]
      rw [SchedRequest.waits_of_ne (by rw [hstatus]; decide)]
      exact (Int.add_zero _).symm

/-- A stopped session that goes on joins the waiting requests again. -/
theorem concludeRequest_spec
    (hkept : whole → ∀ q, s.requests.get? r = some q → q.resumable = true →
      r ∉ stopped.stoppedPreemptedReqs) :
    Returns (concludeRequest cfg res r) s fun _ => Processing whole cfg stopped :=
  (handleStoppedRequest_spec h hkept).bind fun _ _ ⟨hstopped, hwaits⟩ =>
    returns_onlyIf (fun hfinished => (hstopped hfinished).freeRequest)
      fun hfinished => hwaits (Bool.eq_false_of_not_eq_true hfinished)
end

/-! ### The output of one request -/

/-- What decides how a request goes on when its output arrives. -/
structure SameCourse (q q' : SchedRequest) : Prop where
  id : q'.requestId = q.requestId
  status : q'.status = q.status
  resumable : q'.resumable = q.resumable
  pooling : q'.poolingParams = q.poolingParams

theorem SameCourse.refl (q : SchedRequest) : SameCourse q q := ⟨rfl, rfl, rfl, rfl⟩

theorem SameCourse.trans {a b c : SchedRequest} (h : SameCourse a b) (h' : SameCourse b c) :
    SameCourse a c :=
  ⟨h'.id.trans h.id, h'.status.trans h.status, h'.resumable.trans h.resumable,
    h'.pooling.trans h.pooling⟩

/-- A request that is not a session, or a session that is running. -/
def Stoppable (q : SchedRequest) : Prop :=
  q.status = .running ∨ (q.resumable = false ∧ q.status ≠ .waitingForStreamingReq)

theorem Stoppable.status_ne (h : Stoppable q) : q.status ≠ .waitingForStreamingReq := by
  obtain hrunning | hplain := h
  · rw [hrunning]
    decide
  · exact hplain.2

/-- The output cannot stop a session that is not running. -/
def Steady (cfg : SchedConfig m) (res : RunnerOutput n) (r : RequestId) (q : SchedRequest) :
    Prop :=
  Stoppable q ∨ (res.sampledTokenIds r = [] ∧ q.poolingParams = false ∧ cfg.isMmEncoderOnly = false)

/-- Being steady depends on the course of a request only. -/
theorem Steady.congr {q' : SchedRequest} (h : Steady cfg res r q)
    (hsame : SameCourse q q') : Steady cfg res r q' := by
  unfold Steady Stoppable
  rw [hsame.status, hsame.resumable, hsame.pooling]
  exact h

/-- The state after an output has been read, with whether it stops the request. -/
structure Read (whole : Prop) (cfg : SchedConfig m) (stoppedReqs : StoppedReqs)
    (request : SchedRequest) (stopped : Bool) (s : SchedulerState n m) : Prop where
  current : ∃ q, s.requests.get? request.requestId = some q ∧
    (q.resumable = true → request.resumable = true) ∧ (stopped = false → SameCourse request q)
  goesOn : stopped = false → Processing whole cfg stoppedReqs s
  stops : stopped = true →
    Stopped whole cfg (stoppedReqs.add request.requestId request.status) request.requestId s
  cause : stopped = true → whole → Stoppable request

theorem Read.keep {q' : SchedRequest} (h : Processing whole cfg stopped s)
    (hrequest : s.requests.get? request.requestId = some request) (hsame : SameCourse request q') :
    Read whole cfg stopped request false
      { s with requests := s.requests.set request.requestId q' } where
  current := ⟨q', get?_set_self, fun hq => hsame.resumable ▸ hq, fun _ => hsame⟩
  goesOn _ := h.setData hrequest hsame.id hsame.status
  stops hbad := absurd hbad (by decide)
  cause hbad := absurd hbad (by decide)

theorem Read.stop (q' : SchedRequest)
    (h : Processing whole cfg stopped s)
    (hrequest : s.requests.get? request.requestId = some request)
    (hid : q'.requestId = request.requestId) (hresumable : q'.resumable = request.resumable)
    (hfinished : isFinished q'.status = true) (hcause : whole → Stoppable request) :
    Read whole cfg stopped request true
      { s with requests := s.requests.set request.requestId q' } where
  current := ⟨q', get?_set_self, fun hq => hresumable ▸ hq,
    fun hbad => absurd hbad (by decide)⟩
  goesOn hbad := absurd hbad (by decide)
  stops _ := h.stop q' hrequest hid hfinished fun hwhole => (hcause hwhole).status_ne
  cause _ := hcause

theorem Read.frame {stop : Bool}
    (h : Read whole cfg stopped request stop s) (hsame : SameQueues s t) :
    Read whole cfg stopped request stop t where
  current := by
    rw [hsame.requests]
    exact h.current
  goesOn hgoes := (h.goesOn hgoes).frame hsame
  stops hstops := by
    obtain ⟨hprocessing, houtside, hfinished⟩ := h.stops hstops
    refine ⟨hprocessing.frame hsame, ?_, ?_⟩
    · simp only [queues, without, hsame.running, hsame.waiting, hsame.skippedWaiting] at houtside ⊢
      exact houtside
    · rw [hsame.requests]
      exact hfinished
  cause := h.cause

theorem isFinished_of_checkStop {maxModelLen : ℕ}
    (h : checkStop maxModelLen request = some status) :
    isFinished status = true := by
  simp only [checkStop] at h
  split_ifs at h
  all_goals
    cases h
    rfl

/-- Appended tokens change the status of a request only when they stop it. -/
theorem appendTokens_frame (cfg : SchedConfig m) (request : SchedRequest) (tokens : List ℕ) :
    ((appendTokens cfg request tokens).2.2 = false →
      SameCourse request (appendTokens cfg request tokens).1) ∧
    (appendTokens cfg request tokens).1.requestId = request.requestId ∧
    (appendTokens cfg request tokens).1.resumable = request.resumable ∧
    ((appendTokens cfg request tokens).2.2 = true →
      isFinished (appendTokens cfg request tokens).1.status = true) := by
  induction tokens generalizing request with
  | nil => exact ⟨fun _ => .refl request, rfl, rfl, fun hbad => absurd hbad Bool.false_ne_true⟩
  | cons token tokens ih =>
    rw [appendTokens]
    split
    · next status hstop =>
      exact ⟨fun hbad => absurd hbad.symm Bool.false_ne_true, rfl, rfl,
        fun _ => isFinished_of_checkStop hstop⟩
    · have hrest :=
        ih { request with toRequest := appendOutputTokenIds cfg.hasher request.toRequest [token] }
      dsimp only at hrest ⊢
      generalize appendTokens cfg _ tokens = result at hrest ⊢
      obtain ⟨hsame, hid, hresumable, hfinished⟩ := hrest
      refine ⟨fun hgoes => ?_, hid, hresumable, hfinished⟩
      exact ⟨hid, (hsame hgoes).status, hresumable, (hsame hgoes).pooling⟩

section
variable (h : Processing whole cfg stopped s)
include h

/-- An output is appended and stops its request or not. -/
theorem updateRequestWithOutput_spec {tokens : List ℕ}
    (hrequest : s.requests.get? request.requestId = some request)
    (hcause : whole → Stoppable request) :
    Returns (updateRequestWithOutput cfg request.requestId tokens isStale) s
      (Read whole cfg stopped request) := by
  refine returns_bind (returns_getRequest fun current hcurrent => returns_check fun _ => ?_)
  obtain rfl : request = current := Option.some.inj (hrequest.symm.trans hcurrent)
  obtain ⟨hsame, hid, hresumable, hfinished⟩ := appendTokens_frame cfg request tokens
  have hread (placeholders : ℤ) : Read whole cfg stopped request
      (appendTokens cfg request tokens).2.2 { s with
        requests := s.requests.set request.requestId { (appendTokens cfg request tokens).1 with
          numOutputPlaceholders := placeholders } } := by
    cases hstop : (appendTokens cfg request tokens).2.2 with
    | false =>
      apply Read.keep h hrequest
      exact .trans (hsame hstop) ⟨rfl, rfl, rfl, rfl⟩
    | true => exact Read.stop _ h hrequest hid hresumable (hfinished hstop) hcause
  refine returns_modify ?_
  simp only [SchedulerState.modifyRequest, hrequest]
  refine returns_bind (returns_onlyIf (fun _ => returns_check fun _ => ?_) fun _ => hread _)
  refine returns_onlyIf (fun _ => returns_onCache fun _ cache => ?_) fun _ => hread _
  exact (hread _).frame {}

/-- Tokens, or the want of them, may stop the request. -/
theorem consumeOutput_spec (hrequest : s.requests.get? request.requestId = some request)
    (hsteady : whole → Steady cfg res request.requestId request) :
    Returns (consumeOutput cfg res request.requestId isStale) s
      (Read whole cfg stopped request) := by
  have hstays : Read whole cfg stopped request false s :=
    ⟨⟨request, hrequest, fun hq => hq, fun _ => .refl request⟩, fun _ => h,
      fun hbad => absurd hbad (by decide), fun hbad => absurd hbad (by decide)⟩
  refine returns_bind (returns_getRequest fun current hcurrent => ?_)
  obtain rfl : request = current := Option.some.inj (hrequest.symm.trans hcurrent)
  -- an output that stops the request is not quiet
  have hcause (hloud : ¬ (res.sampledTokenIds request.requestId = [] ∧
      request.poolingParams = false ∧ cfg.isMmEncoderOnly = false)) (hwhole : whole) :
      Stoppable request := (hsteady hwhole).resolve_right hloud
  refine returns_ite (fun htokens => ?_) fun _ => returns_ite (fun hstop => ?_) fun _ => hstays
  · exact updateRequestWithOutput_spec h hrequest (hcause fun hquiet => htokens hquiet.1)
  · refine returns_modify ?_
    simp only [SchedulerState.modifyRequest, hrequest]
    apply Read.stop { request with status := .finishedStopped } h hrequest rfl rfl rfl
    apply hcause
    rintro ⟨-, hpooling, hencoder⟩
    rw [hpooling, hencoder] at hstop
    exact absurd hstop (by simp)

omit h in
theorem rejectGrammar_spec {stop : Bool}
    (h : Read whole cfg stopped request stop s)
    (hsteady : whole → Steady cfg res request.requestId request) :
    Returns (rejectGrammar res request.requestId stop) s
      (Read whole cfg stopped request) := by
  refine returns_ite (fun hreject => returns_modify ?_) fun _ => h
  obtain ⟨q, hq, hresumable, hsame⟩ := h.current
  have hcause (hwhole : whole) : Stoppable request :=
    (hsteady hwhole).resolve_right fun hquiet => hreject.1 hquiet.1
  simp only [SchedulerState.modifyRequest, hq]
  refine ⟨⟨_, get?_set_self, fun hbad => absurd hbad (by simp),
    fun hbad => absurd hbad (by decide)⟩, fun hbad => absurd hbad (by decide), fun _ => ?_,
    fun _ => hcause⟩
  cases stop with
  | false =>
    have hsame' := hsame rfl
    rw [← hsame'.status]
    apply (h.goesOn rfl).stop { q with status := .finishedError, resumable := false } hq rfl rfl
    intro hwhole
    rw [hsame'.status]
    exact (hcause hwhole).status_ne
  | true => exact (h.stops rfl).setFinished _ hq rfl rfl

omit h in
theorem returns_freeEncoderInputs (h : ∀ encoder, Q ⟨⟩ { s with encoder }) :
    Returns (freeEncoderInputs cfg request) s Q := by
  refine returns_get ((returns_forM (fun t => ∃ encoder, t = { s with encoder }) _ ?_
    ⟨s.encoder, rfl⟩).mono ?_)
  · rintro i _ t ⟨encoder, rfl⟩
    refine returns_bind (returns_feature fun f _ => returns_onlyIf ?_ fun _ => ⟨encoder, rfl⟩)
    exact fun _ => returns_onEncoder fun _ encoder' => ⟨encoder', rfl⟩
  · rintro _ t ⟨encoder, rfl⟩
    exact h encoder

theorem Processing.modifySelf (hrequest : s.requests.get? r = some request)
    {f : SchedRequest → SchedRequest} (hf : ∀ q, SameCourse q (f q)) :
    Processing whole cfg stopped (s.modifyRequest r f) ∧
      ∃ q, (s.modifyRequest r f).requests.get? r = some q ∧ SameCourse request q := by
  refine ⟨h.modifyRequest r fun q => ⟨(hf q).id, (hf q).status⟩, f request, ?_, hf request⟩
  simp [SchedulerState.modifyRequest, hrequest]

theorem rejectDrafts_spec {drafts generated : ℕ} (hrequest : s.requests.get? r = some request) :
    Returns (rejectDrafts cfg r drafts generated isStale) s fun _ t =>
      Processing whole cfg stopped t ∧ ∃ q, t.requests.get? r = some q ∧ SameCourse request q :=
  returns_onlyIf (fun _ => h.modifySelf hrequest fun _ => ⟨rfl, rfl, rfl, rfl⟩)
    fun _ => ⟨h, request, hrequest, .refl request⟩
end

/-- A request is not listed twice as stopped. -/
def StoppedReqs.Lists (stopped : StoppedReqs) (r : RequestId) : Prop :=
  r ∈ stopped.stoppedRunningReqs ∨ r ∈ stopped.stoppedPreemptedReqs

theorem StoppedReqs.lists_add {x : RequestId}
    (h : (stopped.add r status).Lists x) : x = r ∨ stopped.Lists x := by
  unfold StoppedReqs.add at h
  split at h
  · obtain h | h := h
    · obtain h | h := mem_append.mp h
      · exact .inr (.inl h)
      · exact .inl (mem_singleton.mp h)
    · exact .inr (.inr h)
  · obtain h | h := h
    · exact .inr (.inl h)
    · obtain h | h := mem_append.mp h
      · exact .inr (.inr h)
      · exact .inl (mem_singleton.mp h)

/-- The output of one request keeps the invariant of the loop. -/
theorem applyOutput_spec
    (h : Processing whole cfg stopped s)
    (hrequest : s.requests.get? request.requestId = some request)
    (hnew : ¬ stopped.Lists request.requestId)
    (hsteady : whole → Steady cfg res request.requestId request) :
    Returns (applyOutput cfg out res request isStale stopped) s fun stopped' t =>
      Processing whole cfg stopped' t ∧
        ∀ x, stopped'.Lists x → x = request.requestId ∨ stopped.Lists x := by
  refine (rejectDrafts_spec h hrequest).bind fun _ s₁ ⟨h₁, current, hcurrent, hsame⟩ => ?_
  refine returns_bind (returns_getRequest fun _ _ => ?_)
  refine Returns.bind (P := fun _ t => Processing whole cfg stopped t ∧
    t.requests.get? request.requestId = some current) (returns_onlyIf (fun _ =>
      returns_freeEncoderInputs fun _ => ⟨h₁.frame {}, hcurrent⟩) fun _ => ⟨h₁, hcurrent⟩) ?_
  rintro _ s₂ ⟨h₂, hcurrent₂⟩
  rw [← hsame.id] at hcurrent₂ hsteady hnew ⊢
  have hsteady' := fun hwhole => (hsteady hwhole).congr hsame
  refine (consumeOutput_spec h₂ hcurrent₂ hsteady').bind fun stop s₃ hread => ?_
  refine (rejectGrammar_spec hread hsteady').bind fun stop s₄ hread => ?_
  rw [Returns, ensures_bind, ensures_onlyIf, ← hsame.status]
  cases stop with
  | false =>
    refine ⟨fun hbad => absurd hbad (by decide), fun _ => ?_⟩
    exact ⟨hread.goesOn rfl, fun x hx => .inr hx⟩
  | true =>
    refine ⟨fun _ => ?_, fun hbad => absurd rfl hbad⟩
    have hkept : whole → ∀ q, s₄.requests.get? current.requestId = some q → q.resumable = true →
        current.requestId ∉
          (stopped.add current.requestId current.status).stoppedPreemptedReqs := by
      intro hwhole q hq hresumable
      obtain ⟨q', hq', hsession, -⟩ := hread.current
      obtain rfl : q = q' := Option.some.inj (hq.symm.trans hq')
      obtain hrunning | hplain := hread.cause rfl hwhole
      · rw [StoppedReqs.add, if_pos hrunning]
        exact fun hbad => hnew (.inr hbad)
      · exact absurd (hplain.1.symm.trans (hsession hresumable)) (by decide)
    exact (concludeRequest_spec (hread.stops rfl) hkept).mono fun _ t ht =>
      ⟨ht, fun x hx => StoppedReqs.lists_add hx⟩

/-! ### One request at a time -/

def Only (r : RequestId) (s t : SchedulerState n m) : Prop :=
  ∀ x ≠ r, t.requests.get? x = s.requests.get? x

instance : IsPreorder (SchedulerState n m) (Only r) where
  refl _ _ _ := rfl
  trans _ _ _ h h' x hx := (h' x hx).trans (h x hx)

section
variable (x : RequestId) {α : Type}

theorem only_onCache (op : CacheM n m α) : Within (Only r) (onCache op) := by
  intro s
  rw [onCache, ensures_zoom]
  exact .of_forall (fun _ _ _ _ => rfl) fun _ _ _ _ => rfl

theorem only_onEncoder (op : EncoderM α) : Within (Only r) (onEncoder op : SchedM n m α) := by
  intro s
  rw [onEncoder, ensures_zoom]
  exact .of_forall (fun _ _ _ _ => rfl) fun _ _ _ _ => rfl

theorem only_getRequest : Within (Only r) (getRequest x : SchedM n m _) :=
  within_get_bind fun _ => within_expect _ _ _

theorem only_modifyRequest (f : SchedRequest → SchedRequest) :
    Within (Only r) (modifyRequest r f : SchedM n m PUnit) := by
  apply within_modify
  intro s x hx
  unfold SchedulerState.modifyRequest
  split
  · rfl
  · exact get?_set_of_ne hx

theorem only_modify {f : SchedulerState n m → SchedulerState n m}
    (h : ∀ s, (f s).requests = s.requests) :
    Within (Only r) (modify f : SchedM n m PUnit) := by
  apply within_modify
  intro s x _
  rw [h s]

theorem only_freeRequestBlocks : Within (Only r) (freeRequestBlocks cfg x : SchedM n m PUnit) := by
  refine (only_getRequest x).bind fun request => within_get_bind fun s => within_ite ?_ ?_ s
  · exact only_onCache _
  · exact (only_onCache _).bind fun _ => within_onlyIf _ (only_modify fun _ => rfl)

theorem only_freeBlocks : Within (Only r) (freeBlocks cfg r : SchedM n m PUnit) := by
  refine (only_getRequest r).bind fun _ => (within_check _ _).bind fun _ => ?_
  refine (only_freeRequestBlocks r).bind fun _ => within_modify fun s x hx => ?_
  exact get?_erase_of_ne hx

theorem only_freeRequest (delaysFree : RequestId → Bool) (delayFreeBlocks : Bool) :
    Within (Only r) (freeRequest cfg delaysFree r delayFreeBlocks : SchedM n m PUnit) := by
  refine (only_getRequest r).bind fun _ => (within_check _ _).bind fun _ => ?_
  refine Within.bind (only_modify fun _ => rfl) fun _ => ?_
  refine (within_onlyIf _ (only_onCache _)).bind fun _ => (only_onEncoder _).bind fun _ => ?_
  exact Within.bind (only_modify fun _ => rfl) fun _ => within_onlyIf _ only_freeBlocks

theorem only_enqueueWaitingRequest (status : RequestStatus) :
    Within (Only r) (enqueueWaitingRequest cfg x status : SchedM n m PUnit) := by
  apply only_modify
  intro s
  split <;> rfl

theorem only_continueSession (update : SessionUpdate) :
    Within (Only r) (continueSession cfg r update : SchedM n m PUnit) := by
  refine (only_getRequest r).bind fun request => ?_
  split
  · exact within_throw _
  · exact within_modify fun s x hx => get?_set_of_ne hx

theorem only_handleStoppedRequest :
    Within (Only r) (handleStoppedRequest cfg r : SchedM n m Bool) := by
  refine (only_getRequest r).bind fun request => within_ite (within_pure _) ?_
  split
  · refine Within.bind (only_modify fun _ => rfl) fun _ => (only_modifyRequest _).bind fun _ => ?_
    exact (only_enqueueWaitingRequest _ _).bind fun _ => within_pure _
  · exact (only_modifyRequest _).bind fun _ => within_pure _
  · refine (only_modifyRequest _).bind fun _ => (only_continueSession _).bind fun _ => ?_
    exact (only_enqueueWaitingRequest _ _).bind fun _ => within_pure _

theorem only_updateRequestWithOutput (tokens : List ℕ) (isStale : Bool) :
    Within (Only r) (updateRequestWithOutput cfg r tokens isStale : SchedM n m Bool) := by
  refine (only_getRequest r).bind fun _ => (within_check _ _).bind fun _ => ?_
  refine (only_modifyRequest _).bind fun _ => Within.bind ?_ fun _ => within_pure _
  exact within_onlyIf _ ((within_check _ _).bind fun _ => within_onlyIf _ (only_onCache _))

theorem only_consumeOutput (res : RunnerOutput n) (isStale : Bool) :
    Within (Only r) (consumeOutput cfg res r isStale : SchedM n m Bool) := by
  refine (only_getRequest r).bind fun _ => within_ite (only_updateRequestWithOutput _ _) ?_
  exact within_ite ((only_modifyRequest _).bind fun _ => within_pure _) (within_pure _)

theorem only_freeEncoderInputs (request : SchedRequest) :
    Within (Only r) (freeEncoderInputs cfg request : SchedM n m PUnit) := by
  refine within_get_bind fun s => within_forM _ _ (fun i _ => ?_) s
  exact (within_expect _ _).bind fun f => within_onlyIf _ (only_onEncoder _)

/-- The loop touches one request at a time. -/
theorem only_applyOutput (out : SchedulerOutput n) (res : RunnerOutput n)
    (request : SchedRequest) (isStale : Bool) (stopped : StoppedReqs) :
    Within (Only request.requestId)
      (applyOutput cfg out res request isStale stopped : SchedM n m StoppedReqs) := by
  refine (within_onlyIf _ (only_modifyRequest _)).bind fun _ => (only_getRequest _).bind fun _ => ?_
  refine (within_onlyIf _ (only_freeEncoderInputs _)).bind fun _ => ?_
  refine (only_consumeOutput res isStale).bind fun stop => Within.bind ?_ fun _ => ?_
  · exact within_ite ((only_modifyRequest _).bind fun _ => within_pure _) (within_pure _)
  · refine Within.bind (within_onlyIf _ ?_) fun _ => within_pure _
    exact only_handleStoppedRequest.bind fun _ => within_onlyIf _ (only_freeRequest _ _)
end

/-! ### The loop -/

def Counts (q : SchedRequest) : Prop :=
  isFinished q.status = false ∧ ¬ (0 < q.numStaleOutputTokens ∧ q.dropStaleOutput = true)

/-- One pass of the loop over the outputs keeps its invariant. -/
theorem processRequest_spec
    {failed : List RequestId} {k : ℤ} (h : Processing whole cfg stopped s)
    (hnew : ¬ stopped.Lists r)
    (hsteady : whole → ∀ q, s.requests.get? r = some q → Counts q → Steady cfg res r q) :
    Returns (processRequest cfg out res failed r k stopped) s fun stopped' t =>
      (Processing whole cfg stopped' t ∧ ∀ x, stopped'.Lists x → x = r ∨ stopped.Lists x) ∧
        Only r s t := by
  refine returns_check fun _ => ?_
  rw [Returns, ensures_bind, drainInFlight, ensures_bind, ensures_get]
  cases hrequest : s.requests.get? r with
  | none =>
    dsimp only
    rw [ensures_pure, ensures_bind, ensures_get, hrequest]
    exact ⟨⟨h, fun x hx => .inr hx⟩, fun _ _ => rfl⟩
  | some request =>
    have hid := h.queued.ids r request hrequest
    dsimp only
    rw [ensures_bind, modifyRequest, ensures_modify, ensures_bind, ensures_check]
    refine ⟨fun _ => ?_, fun _ => trivial⟩
    simp only [SchedulerState.modifyRequest, hrequest]
    rw [ensures_pure, ensures_bind, ensures_get, get?_set_self]
    dsimp only
    have hdrained : Processing whole cfg stopped
        { s with requests := s.requests.set r (request.drained k) } :=
      h.setData hrequest rfl rfl
    have hself : Only r s { s with requests := s.requests.set r (request.drained k) } :=
      fun x hx => get?_set_of_ne hx
    rw [ensures_ite]
    refine ⟨fun _ => ⟨⟨hdrained, fun x hx => .inr hx⟩, hself⟩, fun hcounts => ?_⟩
    simp only [not_or, decide_eq_true_eq, Bool.not_eq_true] at hcounts
    subst hid
    have hget : (s.requests.set request.requestId (request.drained k)).get?
        (request.drained k).requestId = some (request.drained k) := get?_set_self
    have hsteady' (hwhole : whole) : Steady cfg res request.requestId (request.drained k) :=
      (hsteady hwhole request hrequest ⟨hcounts.2.1, hcounts.2.2⟩).congr ⟨rfl, rfl, rfl, rfl⟩
    exact ((applyOutput_spec hdrained hget hnew hsteady').and (only_applyOutput _ _ _ _ _ _)).weaken
      fun _ _ hboth => ⟨hboth.1, fun x hx => (hboth.2 x hx).trans (hself x hx)⟩

/-- The loop over the requests of the step, each of which is looked at once. -/
theorem processRequests_spec
    {failed : List RequestId} (entries : List (RequestId × ℤ))
    (hnodup : (entries.map Prod.fst).Nodup) (h : Processing whole cfg stopped s)
    (hnew : ∀ e ∈ entries, ¬ stopped.Lists e.1)
    (hsteady : whole → ∀ e ∈ entries, ∀ q, s.requests.get? e.1 = some q → Counts q →
      Steady cfg res e.1 q) :
    Returns (processRequests cfg out res failed entries stopped) s
      (Processing whole cfg) := by
  induction entries generalizing s stopped with
  | nil => exact h
  | cons e entries ih =>
    obtain ⟨hfresh, hrest⟩ := nodup_cons.mp hnodup
    have hne {e' : RequestId × ℤ} (he' : e' ∈ entries) : e'.1 ≠ e.1 := fun heq =>
      hfresh (heq ▸ mem_map_of_mem he')
    refine (processRequest_spec h (hnew e mem_cons_self)
      fun hwhole => hsteady hwhole e mem_cons_self).bind ?_
    rintro stopped' t ⟨⟨hprocessed, hlists⟩, honly⟩
    apply ih hrest hprocessed
    · intro e' he' hbad
      obtain heq | hold := hlists e'.1 hbad
      · exact hne he' heq
      · exact hnew e' (mem_cons_of_mem e he') hold
    · intro hwhole e' he' q hq
      rw [honly e'.1 (hne he')] at hq
      exact hsteady hwhole e' (mem_cons_of_mem e he') q hq

end Vllm.Scheduler
