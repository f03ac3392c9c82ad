import Vllm.SchedulerRules

/-!
The queues of the scheduler. A request that is queued is in one queue, once, and
not finished; it is running exactly if its status says so. Sessions that wait
for input are counted at least once. That nothing is lost, and that these
sessions are counted exactly, holds under a condition and is asked for by a
parameter. What a change of one request needs in order to keep all this is
stated once, and every operation is an instance.
-/
namespace Vllm.Scheduler

open CacheManagers List OrderedDict
open StreamingSession (RequestStatus)

variable {n m : ℕ}

def SchedRequest.waits (r : SchedRequest) : ℤ :=
  if r.status = .waitingForStreamingReq then 1 else 0

theorem SchedRequest.waits_nonneg (r : SchedRequest) : 0 ≤ r.waits := by
  unfold SchedRequest.waits
  split <;> decide

theorem SchedRequest.waits_of_ne {r : SchedRequest} (h : r.status ≠ .waitingForStreamingReq) :
    r.waits = 0 :=
  if_neg h

namespace SchedulerState

variable (s : SchedulerState n m)

def numStreaming : ℤ := s.requests.sum fun _ q => q.waits

def queues : List RequestId :=
  s.running ++ (s.waiting ++ s.skippedWaiting)

theorem numStreaming_nonneg : 0 ≤ s.numStreaming :=
  sum_nonneg fun _ q _ => q.waits_nonneg

/-- The count of waiting sessions changes by the one request that is set. -/
theorem numStreaming_set {s t : SchedulerState n m} {r : RequestId} {q q' : SchedRequest}
    (hq : s.requests.get? r = some q) (ht : t.requests = s.requests.set r q') :
    t.numStreaming = s.numStreaming - q.waits + q'.waits := by
  unfold numStreaming
  rw [ht, sum_set_of_mem _ (get?_eq_some_iff.mp hq)]

end SchedulerState

open SchedulerState

theorem status_ne_of_finished {status : RequestStatus} (h : isFinished status = true) :
    status ≠ .running := by
  rintro rfl
  exact absurd h (by decide)

/-- `whole` asks that no unfinished request is lost and that the count of the
sessions is exact. -/
structure Queued (whole : Prop) (cfg : SchedConfig m) (s : SchedulerState n m) : Prop where
  ids : ∀ r q, s.requests.get? r = some q → q.requestId = r
  nodup : s.queues.Nodup
  known : ∀ r ∈ s.queues, ∃ q, s.requests.get? r = some q ∧ isFinished q.status = false
  running : ∀ r q, s.requests.get? r = some q → (q.status = .running ↔ r ∈ s.running)
  streaming : s.numStreaming ≤ s.numWaitingForStreamingInput
  capacity : s.running.length ≤ cfg.maxNumRunningReqs
  all : whole → ∀ r q, s.requests.get? r = some q → isFinished q.status = false → r ∈ s.queues
  exact : whole → s.numWaitingForStreamingInput = s.numStreaming

structure SameQueues (s t : SchedulerState n m) : Prop where
  requests : t.requests = s.requests := by rfl
  running : t.running = s.running := by rfl
  waiting : t.waiting = s.waiting := by rfl
  skippedWaiting : t.skippedWaiting = s.skippedWaiting := by rfl
  streaming : t.numWaitingForStreamingInput = s.numWaitingForStreamingInput := by rfl

namespace Queued

variable {whole : Prop} {cfg : SchedConfig m} {s t : SchedulerState n m} {r : RequestId}
  {q q' : SchedRequest}

variable (h : Queued whole cfg s)
include h

theorem streaming_nonneg : 0 ≤ s.numWaitingForStreamingInput :=
  s.numStreaming_nonneg.trans h.streaming

/-- Only the requests, the queues and the count of sessions matter. -/
theorem of_get?_eq (hrequests : ∀ r, t.requests.get? r = s.requests.get? r)
    (hrunning : t.running = s.running)
    (hwaiting : (t.waiting ++ t.skippedWaiting).Perm (s.waiting ++ s.skippedWaiting))
    (hnum : t.numWaitingForStreamingInput = s.numWaitingForStreamingInput) :
    Queued whole cfg t := by
  have hperm : t.queues.Perm s.queues := by
    unfold queues
    rw [hrunning]
    exact hwaiting.append_left s.running
  have hstreaming : t.numStreaming = s.numStreaming :=
    sum_eq_of_get?_eq _ hrequests
  constructor
  · intro r q
    rw [hrequests]
    exact h.ids r q
  · exact hperm.nodup_iff.mpr h.nodup
  · intro r hr
    rw [hrequests]
    exact h.known r (hperm.mem_iff.mp hr)
  · intro r q
    rw [hrequests, hrunning]
    exact h.running r q
  · rw [hstreaming, hnum]
    exact h.streaming
  · rw [hrunning]
    exact h.capacity
  · intro hwhole r q
    rw [hrequests, hperm.mem_iff]
    exact h.all hwhole r q
  · rw [hstreaming, hnum]
    exact h.exact

theorem congr (hrequests : t.requests = s.requests) (hrunning : t.running = s.running)
    (hwaiting : (t.waiting ++ t.skippedWaiting).Perm (s.waiting ++ s.skippedWaiting))
    (hnum : t.numWaitingForStreamingInput = s.numWaitingForStreamingInput) :
    Queued whole cfg t :=
  h.of_get?_eq (fun r => congrArg (fun d => d.get? r) hrequests) hrunning hwaiting hnum

theorem frame (hsame : SameQueues s t) : Queued whole cfg t :=
  h.congr hsame.requests hsame.running (by rw [hsame.waiting, hsame.skippedWaiting]) hsame.streaming

variable (hq : s.requests.get? r = some q)

section
variable (hrequests : t.requests = s.requests.set r q') (hid : q'.requestId = r)
  (hnodup : t.queues.Nodup) (hqueues : ∀ x ≠ r, (x ∈ t.queues ↔ x ∈ s.queues))
  (hrunning : ∀ x ≠ r, (x ∈ t.running ↔ x ∈ s.running))
  (hself : q'.status = .running ↔ r ∈ t.running)
  (hunfinished : r ∈ t.queues → isFinished q'.status = false)
  (hall : whole → isFinished q'.status = false → r ∈ t.queues)
include hrequests hid hnodup hqueues hrunning hself hunfinished hall

/-- The general step: one request is set anew, and the queues follow its status. -/
theorem put (hnum : t.numStreaming ≤ t.numWaitingForStreamingInput)
    (hexact : whole → t.numWaitingForStreamingInput = t.numStreaming)
    (hcapacity : t.running.length ≤ cfg.maxNumRunningReqs) : Queued whole cfg t where
  ids := by
    intro x y hx
    rw [hrequests, get?_set] at hx
    split_ifs at hx with hxr
    · cases hx
      rw [hid, hxr]
    · exact h.ids x y hx
  nodup := hnodup
  known := by
    intro x hx
    rw [hrequests, get?_set]
    split_ifs with hxr
    · subst hxr
      exact ⟨q', rfl, hunfinished hx⟩
    · exact h.known x ((hqueues x hxr).mp hx)
  running := by
    intro x y hx
    rw [hrequests, get?_set] at hx
    split_ifs at hx with hxr
    · cases hx
      rw [hxr]
      exact hself
    · rw [hrunning x hxr]
      exact h.running x y hx
  streaming := hnum
  capacity := hcapacity
  all := by
    intro hwhole x y hx hy
    rw [hrequests, get?_set] at hx
    split_ifs at hx with hxr
    · cases hx
      rw [hxr]
      exact hall hwhole hy
    · exact (hqueues x hxr).mpr (h.all hwhole x y hx hy)
  exact := hexact

include hq in
/-- The same for a request that is known. -/
theorem update
    (hnum : s.numWaitingForStreamingInput - q.waits + q'.waits ≤ t.numWaitingForStreamingInput)
    (hexact : whole →
      t.numWaitingForStreamingInput = s.numWaitingForStreamingInput - q.waits + q'.waits)
    (hcapacity : t.running.length ≤ cfg.maxNumRunningReqs) : Queued whole cfg t := by
  have hsum := numStreaming_set hq hrequests
  have hs := h.streaming
  refine h.put hrequests hid hnodup hqueues hrunning hself hunfinished hall (by omega) ?_ hcapacity
  intro hwhole
  rw [hsum, hexact hwhole, h.exact hwhole]
end

include hq

/-- A request changes its place and its status together. -/
theorem move (hrequests : t.requests = s.requests.set r q') (hid : q'.requestId = r)
    (hperm : t.queues.Perm s.queues) (hrunning : ∀ x ≠ r, (x ∈ t.running ↔ x ∈ s.running))
    (hself : q'.status = .running ↔ r ∈ t.running) (hunfinished : isFinished q'.status = false)
    (hall : whole → r ∈ s.queues)
    (hnum : t.numWaitingForStreamingInput = s.numWaitingForStreamingInput - q.waits + q'.waits)
    (hcapacity : t.running.length ≤ cfg.maxNumRunningReqs) : Queued whole cfg t :=
  h.update hq hrequests hid (hperm.nodup_iff.mpr h.nodup) (fun _ _ => hperm.mem_iff) hrunning hself
    (fun _ => hunfinished) (fun hwhole _ => hperm.mem_iff.mpr (hall hwhole)) hnum.ge
    (fun _ => hnum) hcapacity

theorem setData (hid : q'.requestId = q.requestId) (hstatus : q'.status = q.status) :
    Queued whole cfg { s with requests := s.requests.set r q' } := by
  have hwaits : q'.waits = q.waits := by unfold SchedRequest.waits; rw [hstatus]
  apply h.update hq rfl (hid.trans (h.ids r q hq))
  · exact h.nodup
  · exact fun x _ => Iff.rfl
  · exact fun x _ => Iff.rfl
  · rw [hstatus]
    exact h.running r q hq
  · intro hr
    obtain ⟨y, hy, hfinished⟩ := h.known r hr
    cases hq.symm.trans hy
    rw [hstatus]
    exact hfinished
  · rw [hstatus]
    exact fun hwhole => h.all hwhole r q hq
  · rw [hwaits]
    change _ ≤ s.numWaitingForStreamingInput
    omega
  · intro _
    rw [hwaits]
    change s.numWaitingForStreamingInput = _
    omega
  · exact h.capacity

omit hq in
theorem modifyRequest (r : RequestId) {f : SchedRequest → SchedRequest}
    (hf : ∀ q, (f q).requestId = q.requestId ∧ (f q).status = q.status) :
    Queued whole cfg (s.modifyRequest r f) := by
  unfold SchedulerState.modifyRequest
  split
  · exact h
  · next q hq => exact h.setData hq (hf q).1 (hf q).2

/-- A preempted request goes from the running ones to the waiting ones. -/
theorem preempt (hr : r ∈ s.running) (hrequests : t.requests = s.requests.set r q')
    (hid : q'.requestId = r) (hstatus : q'.status = .preempted)
    (hrunning : t.running = s.running.erase r) (hwaiting : t.waiting.Perm (r :: s.waiting))
    (hskipped : t.skippedWaiting = s.skippedWaiting)
    (hnum : t.numWaitingForStreamingInput = s.numWaitingForStreamingInput) :
    Queued whole cfg t := by
  have hnodup := h.nodup
  have hrun : s.running.Nodup := hnodup.of_append_left
  have hperm : t.queues.Perm s.queues := by
    unfold queues
    rw [hrunning, hskipped]
    apply ((hwaiting.append_right s.skippedWaiting).append_left _).trans
    apply perm_middle.trans
    exact (perm_cons_erase hr).symm.append_right _
  have hnot : r ∉ t.running := by
    rw [hrunning]
    exact hrun.not_mem_erase
  have hold : q.status = .running := (h.running r q hq).mpr hr
  have hwaits : q.waits = 0 := SchedRequest.waits_of_ne (by rw [hold]; decide)
  have hwaits' : q'.waits = 0 := SchedRequest.waits_of_ne (by rw [hstatus]; decide)
  apply h.move hq hrequests hid hperm
  · intro x hx
    rw [hrunning]
    exact mem_erase_of_ne hx
  · rw [hstatus]
    exact ⟨fun hbad => absurd hbad (by decide), fun hmem => absurd hmem hnot⟩
  · rw [hstatus]
    rfl
  · exact fun _ => mem_append_left _ hr
  · rw [hwaits, hwaits', hnum]
    omega
  · rw [hrunning]
    exact length_erase_le.trans h.capacity

/-- A request that starts goes the other way. -/
theorem start (hrequests : t.requests = s.requests.set r q') (hid : q'.requestId = r)
    (hstatus : q'.status = .running) (hrunning : t.running = s.running ++ [r])
    (hwaiting : (r :: (t.waiting ++ t.skippedWaiting)).Perm (s.waiting ++ s.skippedWaiting))
    (hnum : t.numWaitingForStreamingInput = s.numWaitingForStreamingInput)
    (hcapacity : s.running.length < cfg.maxNumRunningReqs)
    (hold : q.status ≠ .waitingForStreamingReq) : Queued whole cfg t := by
  have hwaits := SchedRequest.waits_of_ne hold
  have hwaits' : q'.waits = 0 := SchedRequest.waits_of_ne (by rw [hstatus]; decide)
  have hperm : t.queues.Perm s.queues := by
    unfold queues
    rw [hrunning, append_assoc, singleton_append]
    exact hwaiting.append_left s.running
  apply h.move hq hrequests hid hperm
  · intro x hx
    simp [hrunning, hx]
  · simp [hstatus, hrunning]
  · rw [hstatus]
    rfl
  · exact fun _ => mem_append_right _ (hwaiting.mem_iff.mp mem_cons_self)
  · rw [hwaits, hwaits', hnum]
    omega
  · rw [hrunning, length_append, length_singleton]
    exact hcapacity

/-- A waiting request may change its status and its queue. -/
theorem restate (hr : r ∉ s.running) (hrequests : t.requests = s.requests.set r q')
    (hid : q'.requestId = r) (hstatus : q'.status ≠ .running)
    (hunfinished : isFinished q'.status = false) (hrunning : t.running = s.running)
    (hwaiting : (t.waiting ++ t.skippedWaiting).Perm (s.waiting ++ s.skippedWaiting))
    (hold : isFinished q.status = false) (hnum : t.numWaitingForStreamingInput =
      s.numWaitingForStreamingInput - q.waits + q'.waits) : Queued whole cfg t := by
  have hperm : t.queues.Perm s.queues := by
    unfold queues
    rw [hrunning]
    exact hwaiting.append_left s.running
  apply h.move hq hrequests hid hperm
  · intro x _
    rw [hrunning]
  · rw [hrunning]
    exact ⟨fun hbad => absurd hbad hstatus, fun hmem => absurd hmem hr⟩
  · exact hunfinished
  · exact fun hwhole => h.all hwhole r q hq hold
  · exact hnum
  · rw [hrunning]
    exact h.capacity

omit hq in
/-- A new request comes into one queue. -/
theorem insert (hnone : s.requests.get? r = none) (hrequests : t.requests = s.requests.set r q)
    (hid : q.requestId = r) (hnodup : t.queues.Nodup)
    (hqueues : ∀ x ≠ r, (x ∈ t.queues ↔ x ∈ s.queues)) (hrunning : t.running = s.running)
    (hstatus : q.status ≠ .running) (hunfinished : r ∈ t.queues → isFinished q.status = false)
    (hall : whole → isFinished q.status = false → r ∈ t.queues)
    (hnum : t.numWaitingForStreamingInput = s.numWaitingForStreamingInput + q.waits) :
    Queued whole cfg t := by
  have hnot : r ∉ s.queues := by
    intro hbad
    obtain ⟨x, hx, -⟩ := h.known r hbad
    exact absurd (hnone.symm.trans hx) (by simp)
  have hsum : t.numStreaming = s.numStreaming + q.waits := by
    unfold numStreaming
    rw [hrequests, sum_set_of_notMem _ (get?_eq_none_iff.mp hnone)]
  have hs := h.streaming
  apply h.put hrequests hid hnodup hqueues _ _ hunfinished hall
  · omega
  · intro hwhole
    have hexact := h.exact hwhole
    omega
  · rw [hrunning]
    exact h.capacity
  · intro x _
    rw [hrunning]
  · rw [hrunning]
    exact iff_of_false hstatus fun hbad => hnot (mem_append_left _ hbad)

variable (hfinished : isFinished q.status = true)
include hfinished

theorem notMem_of_finished : r ∉ s.queues := by
  intro hbad
  obtain ⟨x, hx, hunfinished⟩ := h.known r hbad
  cases hq.symm.trans hx
  exact absurd (hfinished.symm.trans hunfinished) (by decide)

omit h in
omit hq in
theorem waits_of_finished : q.waits = 0 := by
  apply SchedRequest.waits_of_ne
  intro hbad
  rw [hbad] at hfinished
  exact absurd hfinished (by decide)

/-- A finished request is in no queue and can be forgotten. -/
theorem erase : Queued whole cfg { s with requests := s.requests.erase r } := by
  have hnot := h.notMem_of_finished hq hfinished
  have hsum : (s.requests.erase r).sum (fun _ q => q.waits) = s.numStreaming := by
    rw [sum_erase_of_mem _ (get?_eq_some_iff.mp hq),
      waits_of_finished hfinished]
    exact Int.sub_zero _
  have hget {x : RequestId} {y : SchedRequest} (hx : (s.requests.erase r).get? x = some y) :
      s.requests.get? x = some y := by
    rw [get?_erase] at hx
    split_ifs at hx
    exact hx
  constructor
  · exact fun x y hx => h.ids x y (hget hx)
  · exact h.nodup
  · intro x hx
    have hne : x ≠ r := fun heq => hnot (heq ▸ hx)
    rw [get?_erase_of_ne hne]
    exact h.known x hx
  · exact fun x y hx => h.running x y (hget hx)
  · exact hsum.le.trans h.streaming
  · exact h.capacity
  · exact fun hwhole x y hx => h.all hwhole x y (hget hx)
  · exact fun hwhole => (h.exact hwhole).trans hsum.symm

end Queued

end Vllm.Scheduler
