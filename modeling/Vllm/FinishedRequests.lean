import Vllm.SchedulerQueues

/-!
Requests that leave. They are first taken out of the queues, all at once, and
then end one by one; in between, those still to end have a status that the queues
do not show. Until then they are left out of account.
-/
namespace Vllm.Scheduler

open Outcome CacheManagers RequestQueue SchedulerState List OrderedDict
open StreamingSession (RequestStatus)

variable {n m : ℕ} {whole : Prop} {cfg : SchedConfig m} {s t : SchedulerState n m}
  {r : RequestId} {status : RequestStatus} {Q : PUnit → SchedulerState n m → Prop}
  {delaysFree : RequestId → Bool}

theorem removeAll_eq_filter {requests : List RequestId} (h : requests.Nodup)
    (removed : List RequestId) : removeAll requests removed = requests.filter (· ∉ removed) := by
  unfold removeAll
  split
  · simp
  · rw [h.erase_eq_filter]
    apply filter_congr
    intro x _
    simp only [mem_singleton, decide_not]
    rfl
  · rfl

/-- Requests that leave all queues at once leave the others in order. -/
theorem Queued.leave (h : Queued whole cfg s) {gone : List RequestId} (hgone : gone.Nodup)
    (hrequests : t.requests = s.requests.eraseAll gone)
    (hrunning : t.running = s.running.filter (· ∉ gone))
    (hwaiting : (t.waiting ++ t.skippedWaiting).Perm
      ((s.waiting ++ s.skippedWaiting).filter (· ∉ gone)))
    (hnum : t.numWaitingForStreamingInput = s.numWaitingForStreamingInput -
      (gone.map fun r => ((s.requests.get? r).map SchedRequest.waits).getD 0).sum) :
    Queued whole cfg t := by
  have hperm : t.queues.Perm (s.queues.filter (· ∉ gone)) := by
    unfold queues
    rw [hrunning, filter_append]
    exact hwaiting.append_left _
  have hmem (x : RequestId) : x ∈ t.queues ↔ x ∈ s.queues ∧ x ∉ gone := by
    rw [hperm.mem_iff, mem_filter]
    simp
  have hget {x : RequestId} {y : SchedRequest} (hx : t.requests.get? x = some y) :
      x ∉ gone ∧ s.requests.get? x = some y := by
    rw [hrequests, get?_eraseAll] at hx
    split_ifs at hx with hxg
    exact ⟨hxg, hx⟩
  have hsum : t.numStreaming = s.numStreaming -
      (gone.map fun r => ((s.requests.get? r).map SchedRequest.waits).getD 0).sum := by
    unfold numStreaming
    rw [hrequests, sum_eraseAll _ gone hgone]
  constructor
  · exact fun x y hx => h.ids x y (hget hx).2
  · exact hperm.nodup_iff.mpr (h.nodup.filter _)
  · intro x hx
    obtain ⟨hold, hxg⟩ := (hmem x).mp hx
    rw [hrequests, get?_eraseAll, if_neg hxg]
    exact h.known x hold
  · intro x y hx
    obtain ⟨hxg, hold⟩ := hget hx
    rw [h.running x y hold, hrunning, mem_filter]
    simp [hxg]
  · have hs := h.streaming
    omega
  · rw [hrunning]
    exact (length_filter_le _ _).trans h.capacity
  · intro hwhole x y hx hy
    obtain ⟨hxg, hold⟩ := hget hx
    exact (hmem x).mpr ⟨h.all hwhole x y hold hy, hxg⟩
  · intro hwhole
    have hs := h.exact hwhole
    omega

/-! ### The first pass of `finish_requests` -/

theorem hasStatus_iff :
    hasStatus s status r = true ↔ ∃ q, s.requests.get? r = some q ∧ q.status = status := by
  unfold hasStatus
  cases s.requests.get? r <;> simp

/-- The sessions that the pass takes off the count. -/
theorem length_filter_streaming (s : SchedulerState n m) (valid : List RequestId) :
    ((valid.filter (hasStatus s .waitingForStreamingReq)).length : ℤ) =
      (valid.map fun r => ((s.requests.get? r).map SchedRequest.waits).getD 0).sum := by
  induction valid with
  | nil => rfl
  | cons r valid ih =>
    have hhead : (((s.requests.get? r).map SchedRequest.waits).getD 0 : ℤ) =
        if hasStatus s .waitingForStreamingReq r = true then 1 else 0 := by
      unfold hasStatus
      cases s.requests.get? r with
      | none => simp
      | some q => simp [SchedRequest.waits]
    rw [map_cons, sum_cons, hhead, ← ih, filter_cons]
    split_ifs
    · rw [length_cons]
      omega
    · omega

/-- The first pass of `finish_requests` takes out the requests that the second one ends. -/
theorem leaveQueues_spec (h : Queued whole cfg s) {valid : List RequestId} (hvalid : valid.Nodup) :
    Queued whole cfg
      { leaveQueues cfg valid s with requests := s.requests.eraseAll valid } := by
  -- a request is in `running` if its status says so, and else in another queue
  have hstatus {x : RequestId} (hx : x ∈ s.queues) :
      hasStatus s .running x = true ↔ x ∈ s.running := by
    obtain ⟨q, hq, -⟩ := h.known x hx
    rw [hasStatus_iff, ← h.running x q hq]
    constructor
    · rintro ⟨y, hy, hrunning⟩
      cases hq.symm.trans hy
      exact hrunning
    · exact fun hrunning => ⟨q, hq, hrunning⟩
  have hrest {queue : List RequestId} (hsub : ∀ x ∈ queue, x ∈ s.waiting ++ s.skippedWaiting) :
      (if valid.filter (fun r => !hasStatus s .running r) = [] then queue
        else removeRequests cfg.policy s.lt queue fun r =>
          r ∈ valid.filter fun r => !hasStatus s .running r).Perm
        (queue.filter (· ∉ valid)) := by
    have hfilter : queue.filter (fun x => !decide (x ∈ valid.filter fun r =>
        !hasStatus s .running r)) = queue.filter (· ∉ valid) := by
      apply filter_congr
      intro x hx
      have hx' := hsub x hx
      have hnot : x ∉ s.running := fun hbad =>
        (nodup_append.mp h.nodup).2.2 x hbad x hx' rfl
      have hfalse : hasStatus s .running x = false := by
        rw [Bool.eq_false_iff, ne_eq, hstatus (mem_append_right _ hx')]
        exact hnot
      simp [hfalse]
    split_ifs with hnil
    · rw [hnil] at hfilter
      rw [← hfilter]
      simp
    · rw [← hfilter]
      exact removeRequests_perm ..
  apply h.leave hvalid
  · rfl
  · change removeAll s.running _ = _
    rw [removeAll_eq_filter h.nodup.of_append_left]
    apply filter_congr
    intro x hx
    simp [(hstatus (mem_append_left _ hx)).mpr hx]
  · rw [filter_append]
    apply List.Perm.append
    · exact hrest fun x hx => mem_append_left _ hx
    · exact hrest fun x hx => mem_append_right _ hx
  · rw [← length_filter_streaming]
    rfl

/-! ### The end of a request -/

theorem returns_freeBlocks
    (h : ∀ request cache deferredFrees, s.requests.get? r = some request →
      isFinished request.status = true →
      Q ⟨⟩ { s with cache, deferredFrees, requests := s.requests.erase r }) :
    Returns (freeBlocks cfg r) s Q := by
  refine returns_bind (returns_getRequest fun request hrequest => returns_check fun hfinished => ?_)
  exact returns_bind (returns_freeRequestBlocks fun cache deferredFrees =>
    h request cache deferredFrees hrequest hfinished)

theorem returns_connectorFinished {request : SchedRequest}
    (h : ∀ cache, Q ⟨⟩ { s with cache }) : Returns (connectorFinished cfg request) s Q :=
  returns_onlyIf (fun _ => returns_onCache fun _ cache => h cache) fun _ => h s.cache

/-- A finished request is freed. It is forgotten, unless a connector still
needs its blocks. -/
theorem returns_freeRequest {delayFreeBlocks : Bool}

    (h : ∀ request cache deferredFrees encoder requests, s.requests.get? r = some request →
      isFinished request.status = true →
      (requests = s.requests ∨ requests = s.requests.erase r) →
      Q ⟨⟩ { s with
        cache, deferredFrees, encoder, requests
        inflightPrefills := s.inflightPrefills.erase r
        finishedReqIds := r :: s.finishedReqIds }) :
    Returns (freeRequest cfg delaysFree r delayFreeBlocks) s Q := by
  refine returns_bind (returns_getRequest fun request hrequest => returns_check fun hfinished => ?_)
  refine returns_modify (returns_bind (returns_connectorFinished fun cache => ?_))
  refine returns_bind (returns_onEncoder fun _ encoder => returns_modify (returns_onlyIf ?_ ?_))
  · exact fun _ => returns_freeBlocks fun _ cache' deferredFrees _ _ =>
      h request cache' deferredFrees encoder _ hrequest hfinished (.inr rfl)
  · exact fun _ => h request cache s.deferredFrees encoder _ hrequest hfinished (.inl rfl)

structure Leaving (whole : Prop) (cfg : SchedConfig m) (pending : List RequestId)
    (s : SchedulerState n m) : Prop where
  ids : ∀ r q, s.requests.get? r = some q → q.requestId = r
  rest : Queued whole cfg { s with requests := s.requests.eraseAll pending }

theorem Leaving.nil : Leaving whole cfg [] s ↔ Queued whole cfg s :=
  ⟨fun h => h.rest, fun h => ⟨h.ids, h⟩⟩

/-- A request ends: from now on it counts, as finished or not at all. -/
theorem Leaving.finish {pending : List RequestId} (h : Leaving whole cfg (r :: pending) s)
    (request : SchedRequest) (hr : r ∉ pending)
    (hid : request.requestId = r) (hfinished : isFinished request.status = true)
    (hrequests : t.requests = s.requests.set r request ∨
      t.requests = (s.requests.set r request).erase r)
    (hrunning : t.running = s.running) (hwaiting : t.waiting = s.waiting)
    (hskipped : t.skippedWaiting = s.skippedWaiting)
    (hnum : t.numWaitingForStreamingInput = s.numWaitingForStreamingInput) :
    Leaving whole cfg pending t := by
  have hperm : (t.waiting ++ t.skippedWaiting).Perm (s.waiting ++ s.skippedWaiting) := by
    rw [hwaiting, hskipped]
  have hnone : (s.requests.eraseAll (r :: pending)).get? r = none := by
    rw [get?_eraseAll, if_pos mem_cons_self]
  have hnot : r ∉ s.queues := by
    intro hbad
    obtain ⟨q, hq, -⟩ := h.rest.known r hbad
    exact absurd (hnone.symm.trans hq) (by simp)
  have hids : ∀ x y, t.requests.get? x = some y → y.requestId = x := by
    intro x y hx
    obtain heq | heq := hrequests
    · rw [heq, get?_set] at hx
      split_ifs at hx with hxr
      · cases hx
        rw [hid, hxr]
      · exact h.ids x y hx
    · rw [heq, get?_erase, get?_set] at hx
      split_ifs at hx
      exact h.ids x y hx
  refine ⟨hids, ?_⟩
  obtain heq | heq := hrequests
  · -- it is kept as finished
    have hkept : Queued whole cfg { s with
        requests := (s.requests.eraseAll (r :: pending)).set r request } := by
      refine h.rest.insert hnone rfl hid h.rest.nodup (fun x _ => Iff.rfl) rfl
        (status_ne_of_finished hfinished) (fun hbad => absurd hbad hnot)
        (fun _ hbad => absurd (hfinished.symm.trans hbad) (by decide)) ?_
      rw [Queued.waits_of_finished hfinished]
      exact (Int.add_zero _).symm
    refine hkept.of_get?_eq ?_ hrunning hperm hnum
    intro x
    rw [heq, get?_eraseAll, get?_set, get?_set,
      get?_eraseAll]
    by_cases hx : x = r
    · subst hx
      simp [hr]
    · simp [hx]
  · refine h.rest.of_get?_eq ?_ hrunning hperm hnum
    intro x
    rw [heq, get?_eraseAll, get?_erase, get?_set,
      get?_eraseAll]
    by_cases hx : x = r <;> simp [hx]

/-- The second pass ends one request of those that have left. -/
theorem finishRequest_spec {pending : List RequestId}
    (h : Leaving whole cfg (r :: pending) s) (hr : r ∉ pending)
    (hstatus : isFinished status = true) :
    Returns (finishRequest cfg delaysFree status r) s fun _ => Leaving whole cfg pending := by
  refine returns_bind (returns_getRequest fun request hrequest => returns_get ?_)
  have hid := h.ids r request hrequest
  refine returns_bind (returns_onlyIf (fun _ => ?_) fun _ => returns_modify ?_)
  · rw [Returns, ensures_modify]
    refine returns_modify ?_
    simp only [SchedulerState.modifyRequest, hrequest]
    exact returns_freeRequest fun _ _ _ _ _ _ _ hrequests =>
      h.finish { request with status } hr hid hstatus hrequests rfl rfl rfl rfl
  · simp only [SchedulerState.modifyRequest, hrequest]
    exact returns_freeRequest fun _ _ _ _ _ _ _ hrequests =>
      h.finish { request with status } hr hid hstatus hrequests rfl rfl rfl rfl

/-- When all pending requests have ended, the queues are in order. -/
theorem finishAll_spec
    (hstatus : isFinished status = true) (pending : List RequestId) (hnodup : pending.Nodup)
    (h : Leaving whole cfg pending s) :
    Returns (forM pending (finishRequest cfg delaysFree status)) s
      fun _ => Queued whole cfg := by
  induction pending generalizing s with
  | nil => exact Leaving.nil.mp h
  | cons r pending ih =>
    obtain ⟨hr, hpending⟩ := nodup_cons.mp hnodup
    exact (finishRequest_spec h hr hstatus).bind fun _ t ht => ih hpending ht

theorem finishRequests_spec {ids : List RequestId}
    (h : Queued whole cfg s) :
    Returns (finishRequests cfg delaysFree ids status) s fun _ => Queued whole cfg := by
  have hnodup : (unfinishedAmong s ids).Nodup := ids.nodup_dedup.filter _
  refine returns_check fun hstatus => returns_get (returns_bind ?_)
  exact finishAll_spec hstatus _ hnodup ⟨h.ids, leaveQueues_spec h hnodup⟩

end Vllm.Scheduler
