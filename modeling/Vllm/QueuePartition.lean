import Vllm.EngineRuns

/-!
The queues of the scheduler partition the requests that are not finished, in every
state of a run whose outputs do not stop a session that is not running. Such a
session is queued again and then removed with the stopped requests: it is lost.
-/
namespace Vllm.Scheduler

open CacheManagers

variable {n m : ℕ} {cfg : SchedConfig m} {s : SchedulerState n m}

/-- Each unfinished request is in one queue, once, and in `running` if its status
says so; no finished request is queued; the sessions that wait are counted. -/
structure Partitioned (s : SchedulerState n m) : Prop where
  once : ∀ r q, s.requests.get? r = some q → isFinished q.status = false → s.queues.count r = 1
  running : ∀ r q, s.requests.get? r = some q → isFinished q.status = false →
    (q.status = .running ↔ r ∈ s.running)
  unfinished : ∀ r ∈ s.queues, ∃ q, s.requests.get? r = some q ∧ isFinished q.status = false
  sessions : s.numWaitingForStreamingInput =
    s.requests.entries.countP fun e => decide (e.2.status = .waitingForStreamingReq)

/-- Every session that waits adds one. -/
theorem numStreaming_eq_countP (s : SchedulerState n m) : s.numStreaming =
    s.requests.entries.countP fun e => decide (e.2.status = .waitingForStreamingReq) := by
  unfold SchedulerState.numStreaming OrderedDict.sum
  induction s.requests.entries with
  | nil => rfl
  | cons e entries ih =>
    rw [List.map_cons, List.sum_cons, ih, List.countP_cons]
    by_cases hwaits : e.2.status = .waitingForStreamingReq
    · simp [SchedRequest.waits, hwaits, add_comm]
    · simp [SchedRequest.waits, hwaits]

/-- With exact counts every unfinished request is in exactly one queue. -/
theorem Queued.partitioned (h : Queued True cfg s) : Partitioned s := by
  constructor
  · intro r q hq hunfinished
    exact List.count_eq_one_of_mem h.nodup (h.all trivial r q hq hunfinished)
  · intro r q hq _
    exact h.running r q hq
  · exact h.known
  · exact (h.exact trivial).trans (numStreaming_eq_countP s)

/-- So it is along every run whose outputs are steady. -/
theorem Run.queues_partition [NeZero n] {e : Engine n m}
    (h : Run cfg (fun e op => op.Steady cfg e) e) : Partitioned e.sched := by
  have hqueued : Queued True cfg e.sched := h.queued fun _ _ _ hop => hop
  exact hqueued.partitioned

instance (res : RunnerOutput n) (r : RequestId) (q : SchedRequest) :
    Decidable (Steady cfg res r q) :=
  inferInstanceAs (Decidable ((_ ∨ (_ ∧ _)) ∨ (_ ∧ _ ∧ _)))

instance (q : SchedRequest) : Decidable (Counts q) :=
  inferInstanceAs (Decidable (_ ∧ ¬ (_ ∧ _)))

instance (out : SchedulerOutput n) (res : RunnerOutput n) (s : SchedulerState n m) :
    Decidable (SteadyOutput cfg out res s) :=
  inferInstanceAs (Decidable (∀ r ∈ out.numScheduledTokens.keys,
    ∀ q ∈ s.requests.get? r, Counts q → Steady cfg res r q))

instance (e : Engine n m) : (op : Op n m) → Decidable (op.Steady cfg e)
  | .updateFromOutput res =>
    inferInstanceAs (Decidable (∀ out ∈ e.inFlight.head?, SteadyOutput cfg out res e.sched))
  | .addRequest .. | .schedule _ | .finishRequests .. | .updateDraftTokenIds _
  | .resetPrefixCache _ | .setPauseState _ | .resetEncoderCache => inferInstanceAs (Decidable True)

def aheadConfig : SchedConfig 1 := { smallConfig .fullAttention with asyncScheduling := true }

def sessionOps : List (Op 3 1) :=
  [.addRequest (promptRequest 0 [1, 2, 3] 4) fun _ => false,
    .addRequest (sessionRequest 1 [1, 2, 3] 1) fun _ => false, .schedule coldEnv,
    .schedule coldEnv, .updateFromOutput (sampled fun _ => [7])]

theorem partitioned_session : ∃ e : Engine 3 1,
    Run aheadConfig (fun e op => op.Steady aheadConfig e) e ∧ e.sched.queues = [0, 1] ∧
      e.sched.numWaitingForStreamingInput = 1 ∧ Partitioned e.sched := by
  obtain ⟨e, hrun, hqueues, hsessions⟩ := exists_run_of_boot aheadConfig
    (fun e op => op.Steady aheadConfig e) (.shared (.create 0)) sessionOps
    (fun e => e.sched.queues = [0, 1] ∧ e.sched.numWaitingForStreamingInput = 1)
    rfl (by decide) (by decide +kernel)
  exact ⟨e, hrun, hqueues, hsessions, hrun.queues_partition⟩

/-- The second step takes the last block from the session, and the output of the
first one stops it. -/
def lostSessionOps : List (Op 3 1) :=
  [.addRequest (promptRequest 0 [1, 2, 3, 4] 4) fun _ => false,
    .addRequest (sessionRequest 1 [1, 2, 3, 4] 1) fun _ => false, .schedule coldEnv,
    .schedule coldEnv, .updateFromOutput (sampled fun _ => [7])]

/-- The preempted session waits for its next prompt, but is in no queue. -/
theorem not_partitioned_lost_session : ∃ e : Engine 3 1,
    Run aheadConfig (fun _ _ => True) e ∧ ¬ Partitioned e.sched := by
  obtain ⟨e, hrun, hqueues, q, hq, hunfinished⟩ := exists_run_of_boot aheadConfig
    (fun _ _ => True) (.shared (.create 0)) lostSessionOps
    (fun e => e.sched.queues = [0] ∧ ∃ q ∈ e.sched.requests.get? 1, isFinished q.status = false)
    rfl (by decide) (by decide +kernel)
  refine ⟨e, hrun, fun hpartitioned => ?_⟩
  have hcount := hpartitioned.once 1 q hq hunfinished
  rw [hqueues] at hcount
  exact absurd hcount (by decide)

/-- Whatever outputs stop, the queues hold unfinished requests, each once, and
`running` those whose status says so, within capacity. -/
theorem Run.queues_sound [NeZero n] {e : Engine n m} (h : Run cfg (fun _ _ => True) e) :
    e.sched.queues.Nodup ∧ e.sched.running.length ≤ cfg.maxNumRunningReqs ∧
      (∀ r ∈ e.sched.queues, ∃ q, e.sched.requests.get? r = some q ∧ isFinished q.status = false) ∧
      ∀ r q, e.sched.requests.get? r = some q → (q.status = .running ↔ r ∈ e.sched.running) := by
  have hqueued : Queued False cfg e.sched := h.queued False.elim
  exact ⟨hqueued.nodup, hqueued.capacity, hqueued.known, hqueued.running⟩

theorem queues_sound_lost_session : ∃ e : Engine 3 1, Run aheadConfig (fun _ _ => True) e ∧
    e.sched.queues = [0] ∧ e.sched.running.length ≤ 4 := by
  obtain ⟨e, hrun, hqueues⟩ := exists_run_of_boot aheadConfig (fun _ _ => True)
    (.shared (.create 0)) lostSessionOps (fun e => e.sched.queues = [0]) rfl (by decide)
    (by decide +kernel)
  exact ⟨e, hrun, hqueues, hrun.queues_sound.2.1⟩

end Vllm.Scheduler
