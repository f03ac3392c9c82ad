import Mathlib.Data.List.Lemmas
import Vllm.ScheduleBooks

/-!
The loop over the running requests. The requests that were scheduled lie before
the index of the loop, also after a victim has been taken out of the list, and
the books stay in order. A victim that was scheduled in the call is taken back
before it is preempted.
-/
namespace Vllm.Scheduler

open Outcome CacheManagers EncoderCache List OrderedDict

variable {n m : ℕ} {victim : RequestId} {sched : SchedulerState n m}

/-! ### Positions in a list from which one is removed -/

section
variable {α : Type} {l : List α}

def shiftIndex (v j : ℕ) : ℕ := if v < j then j - 1 else j

/-- The elements stay in order when one is removed, each at its shifted index. -/
theorem getElem?_eraseIdx_shiftIndex {v j : ℕ} (h : j ≠ v) :
    (l.eraseIdx v)[shiftIndex v j]? = l[j]? := by
  unfold shiftIndex
  rw [getElem?_eraseIdx]
  by_cases hv : v < j
  · rw [if_pos hv, if_neg (by omega), Nat.sub_add_cancel (by omega)]
  · rw [if_neg hv, if_pos (by omega)]

theorem shiftIndex_lt_shiftIndex {v i j : ℕ} (hj : j ≠ v) (hij : j < i) :
    shiftIndex v j < shiftIndex v i := by
  unfold shiftIndex
  split_ifs <;> omega

theorem dropLast_eq_erase [DecidableEq α] {a : α} (hlast : l.getLast? = some a)
    (hnodup : l.Nodup) : l.dropLast = l.erase a := by
  have hsplit := dropLast_append_getLast? a hlast
  have hnot : a ∉ l.dropLast := by
    rw [← hsplit] at hnodup
    intro hmem
    exact (disjoint_of_nodup_append hnodup) hmem (mem_singleton_self a)
  rw [← hsplit, erase_append_right _ hnot]
  simp

theorem idxOf_last [DecidableEq α] {a : α} (hlast : l.getLast? = some a)
    (hnodup : l.Nodup) : l.idxOf a = l.length - 1 := by
  have hlen : 0 < l.length := by
    rw [length_pos_iff]
    rintro rfl
    simp at hlast
  rw [getLast?_eq_getElem?] at hlast
  obtain ⟨hlt, hget⟩ := List.getElem?_eq_some_iff.mp hlast
  rw [← hget]
  exact hnodup.idxOf_getElem _ hlt
end

/-! ### Victims -/

/-- The local variables after a victim has been taken out of `running`. -/
inductive Taken (cfg : SchedConfig m) (l : Locals) (victimIndex : ℕ) (victim : RequestId) :
    Locals → Prop where
  | kept (h : victim ∉ l.scheduledRunningReqs) :
      Taken cfg l victimIndex victim { l with reqIndex := shiftIndex victimIndex l.reqIndex }
  | unscheduled (h : victim ∈ l.scheduledRunningReqs) (k encoderComputeBudget : ℤ)
      (hk : l.numScheduledTokens.get? victim = some k) :
      Taken cfg l victimIndex victim { l with
        reqIndex := shiftIndex victimIndex l.reqIndex
        scheduledRunningReqs := l.scheduledRunningReqs.erase victim
        numScheduledTokens := l.numScheduledTokens.erase victim
        tokenBudget := l.tokenBudget + k
        inputBudget := l.inputBudget + (k + cfg.draftSlots)
        scheduledSpecDecodeTokens := l.scheduledSpecDecodeTokens.erase victim
        scheduledEncoderInputs := l.scheduledEncoderInputs.erase victim
        encoderComputeBudget }

section
variable {cfg : SchedConfig m} {p : Pass n m}

theorem returns_sumEncoderEmbeds {σ : Type} {request : EncoderRequest} (inputs : List ℕ) {t : σ}
    {Q : ℕ → σ → Prop} (h : ∀ k, Q k t) : Returns (sumEncoderEmbeds request inputs) t Q := by
  induction inputs generalizing Q with
  | nil => exact h 0
  | cons i inputs ih =>
    exact returns_bind (returns_expect fun f _ => returns_bind (ih fun k => h _))

theorem returns_unschedule {Q : PUnit → Pass n m → Prop}
    (h : ∀ k encoderComputeBudget, p.locals.numScheduledTokens.get? victim = some k →
      Q ⟨⟩ { p with locals := { p.locals with
        scheduledRunningReqs := p.locals.scheduledRunningReqs.erase victim
        numScheduledTokens := p.locals.numScheduledTokens.erase victim
        tokenBudget := p.locals.tokenBudget + k
        inputBudget := p.locals.inputBudget + (k + cfg.draftSlots)
        scheduledSpecDecodeTokens := p.locals.scheduledSpecDecodeTokens.erase victim
        scheduledEncoderInputs := p.locals.scheduledEncoderInputs.erase victim
        encoderComputeBudget } }) :
    Returns (unschedule cfg victim) p Q := by
  refine returns_get (returns_expect fun k hk => returns_modify ?_)
  refine returns_bind (returns_getRequestOfPass fun request _ => ?_)
  exact returns_bind (returns_sumEncoderEmbeds _ fun numEmbeds => h k _ hk)

/-- Under priorities a victim has the largest key; otherwise it is the last
request, which has not been scheduled yet. -/
theorem returns_takeVictim {Q : RequestId → Pass n m → Prop}
    (hnodup : p.sched.running.Nodup) (hindex : p.locals.reqIndex < p.sched.running.length)
    (hbefore : ∀ r ∈ p.locals.scheduledRunningReqs,
      ∃ j < p.locals.reqIndex, p.sched.running[j]? = some r)
    (h : ∀ victim l, victim ∈ p.sched.running → (victim ∈ p.locals.scheduledRunningReqs →
        ∀ r ∈ p.sched.running, victimKey p.sched r ≤ victimKey p.sched victim) →
      Taken cfg p.locals (p.sched.running.idxOf victim) victim l →
      Q victim { sched := { p.sched with running := p.sched.running.erase victim }, locals := l }) :
    Returns (takeVictim cfg) p Q := by
  refine returns_get ?_
  cases cfg.policy with
  | priority =>
    refine returns_expect fun victim hvictim => returns_modify (returns_modify ?_)
    have hmem := argmax_mem hvictim
    have hlargest : ∀ r ∈ p.sched.running, victimKey p.sched r ≤ victimKey p.sched victim :=
      fun r hr => le_of_mem_argmax hr hvictim
    dsimp only
    rw [eraseIdx_idxOf_eq_erase]
    refine returns_bind (returns_onlyIf (fun hscheduled => ?_) fun hscheduled => ?_)
    · exact returns_unschedule fun k budget hk =>
        h victim _ hmem (fun _ => hlargest) (.unscheduled hscheduled k budget hk)
    · exact h victim _ hmem (fun _ => hlargest) (.kept hscheduled)
  | fcfs =>
    refine returns_expect fun victim hlast => returns_modify ?_
    have hmem := mem_of_getLast? hlast
    have hidx := idxOf_last hlast hnodup
    -- what was scheduled lies before the index, and the index is in the list
    have hscheduled : victim ∉ p.locals.scheduledRunningReqs := by
      intro hsched
      obtain ⟨j, hj, hget⟩ := hbefore victim hsched
      obtain ⟨hlt, rfl⟩ := List.getElem?_eq_some_iff.mp hget
      rw [hnodup.idxOf_getElem j hlt] at hidx
      omega
    rw [Returns, ensures_pure]
    dsimp only
    rw [dropLast_eq_erase hlast hnodup]
    have hkept : Taken cfg p.locals (p.sched.running.idxOf victim) victim _ := .kept hscheduled
    have hsame : shiftIndex (p.sched.running.idxOf victim) p.locals.reqIndex =
        p.locals.reqIndex := by
      unfold shiftIndex
      rw [if_neg (by omega)]
    rw [hsame] at hkept
    exact h victim _ hmem (fun hbad => absurd hbad hscheduled) hkept
end

/-! ### The loop -/

/-- The requests put aside for a call count as skipped. -/
def Pass.view (p : Pass n m) : SchedulerState n m :=
  { p.sched with skippedWaiting := p.locals.stepSkippedWaiting ++ p.sched.skippedWaiting }

/-- Draft tokens come with a token to verify them with. -/
def FreshDrafts (cfg : SchedConfig m) (q : SchedRequest) : Prop :=
  0 < cfg.numSampledTokensPerStep → q.specTokenIds ≠ [] →
    q.numComputedTokens < q.numTokens + q.numOutputPlaceholders

/-- Whenever the loop schedules a request, the drafts of the request are fresh. -/
def FreshVisits (cfg : SchedConfig m) (env : ScheduleEnv n m) (deferPrefills : Bool) :
    ℕ → Pass n m → Prop
  | 0, _ => True
  | fuel + 1, p => ∀ r, p.sched.running[p.locals.reqIndex]? = some r → 0 < p.locals.tokenBudget →
    ∀ control p', (runningStep cfg env deferPrefills r).run p = .ok control p' →
      (r ∈ p'.locals.scheduledRunningReqs → ∀ q, p.sched.requests.get? r = some q →
        FreshDrafts cfg q) ∧
      (control = .next → FreshVisits cfg env deferPrefills fuel p')

structure RunningInv (whole fair : Prop) (cfg : SchedConfig m) (budget : ℤ) (p : Pass n m) :
    Prop where
  queued : Queued whole cfg p.view
  books : Books fair cfg budget p.sched.running p.locals
  before : ∀ r ∈ p.locals.scheduledRunningReqs,
    ∃ j < p.locals.reqIndex, p.sched.running[j]? = some r
  noneNew : p.locals.scheduledNewReqs = []
  noneResumed : p.locals.scheduledResumedReqs = []
  noneAside : p.locals.stepSkippedWaiting = []
  preempted : ∀ r ∈ p.locals.preemptedReqs, r ∈ p.sched.waiting
  inOrder : fair → ∀ r ∈ p.sched.running, ∀ q, p.sched.requests.get? r = some q →
    ItemsInOrder q.encoderRequest.mmFeatures
  ordered : fair → ∀ r ∈ p.view.waiting ++ p.view.skippedWaiting, ∀ q,
    p.sched.requests.get? r = some q → ItemsInOrder q.encoderRequest.mmFeatures

structure Aims (fair : Prop) (cfg : SchedConfig m) (request : SchedRequest) (k : ℤ)
    (p : Pass n m) : Prop where
  current : p.sched.running[p.locals.reqIndex]? = some request.requestId
  known : p.sched.requests.get? request.requestId = some request
  tokens : fair → k ≤ p.locals.tokenBudget
  inputs : fair → k + cfg.draftSlots ≤ p.locals.inputBudget

variable {whole fair : Prop} {cfg : SchedConfig m} {env : ScheduleEnv n m} {budget : ℤ}
  {p : Pass n m} {request : SchedRequest} {k : ℤ}

section
variable (h : RunningInv whole fair cfg budget p)
include h

theorem RunningInv.nodup : p.sched.running.Nodup :=
  h.queued.nodup.of_append_left

theorem RunningInv.frame (hsame : SameQueues p.sched sched) :
    RunningInv whole fair cfg budget { p with sched } where
  queued := h.queued.frame ⟨hsame.requests, hsame.running, hsame.waiting,
    congrArg (p.locals.stepSkippedWaiting ++ ·) hsame.skippedWaiting, hsame.streaming⟩
  books := h.books.mono (by rw [hsame.running]; exact h.books.running)
  before := by rw [hsame.running]; exact h.before
  noneNew := h.noneNew
  noneResumed := h.noneResumed
  noneAside := h.noneAside
  preempted := by rw [hsame.waiting]; exact h.preempted
  inOrder := by rw [hsame.requests, hsame.running]; exact h.inOrder
  ordered := by
    simp only [Pass.view, hsame.waiting, hsame.skippedWaiting, hsame.requests]
    exact h.ordered

theorem RunningInv.scheduled_eq : p.locals.scheduled = p.locals.scheduledRunningReqs := by
  simp [Locals.scheduled, h.noneNew, h.noneResumed]

variable {l : Locals} {q : SchedRequest}

/-- The budgets of a victim go back when it is taken out. -/
theorem RunningInv.books_taken
    (htaken : Taken cfg p.locals (p.sched.running.idxOf victim) victim l) :
    Books fair cfg budget (p.sched.running.erase victim) l := by
  have hmem (x : RequestId) (hx : x ∈ p.sched.running) (hne : x ≠ victim) :
      x ∈ p.sched.running.erase victim := (mem_erase_of_ne hne).mpr hx
  cases htaken with
  | kept hnot =>
    refine { h.books with running := ?_ }
    intro x hx
    apply hmem x (h.books.running x hx)
    rintro rfl
    rw [← h.scheduled_eq] at hnot
    exact hnot (h.books.keys.mem_iff.mp hx)
  | unscheduled hscheduled k encoderComputeBudget hk =>
    apply h.books.unschedule hk rfl rfl rfl _ rfl rfl hmem
    simp only [Locals.scheduled, h.noneNew, h.noneResumed, append_nil]
    exact (perm_cons_erase hscheduled).symm

omit h in
theorem Taken.before (hmem : victim ∈ p.sched.running) (hinv : RunningInv whole fair cfg budget p)
    (htaken : Taken cfg p.locals (p.sched.running.idxOf victim) victim l) :
    ∀ r ∈ l.scheduledRunningReqs, ∃ j < l.reqIndex,
      (p.sched.running.erase victim)[j]? = some r := by
  have hshift {r : RequestId} (hr : r ∈ p.locals.scheduledRunningReqs) (hne : r ≠ victim) :
      ∃ j < shiftIndex (p.sched.running.idxOf victim) p.locals.reqIndex,
        (p.sched.running.erase victim)[j]? = some r := by
    obtain ⟨j, hj, hget⟩ := hinv.before r hr
    have hjv : j ≠ p.sched.running.idxOf victim := by
      rintro rfl
      rw [getElem?_idxOf hmem] at hget
      exact hne (Option.some.inj hget).symm
    refine ⟨_, shiftIndex_lt_shiftIndex hjv hj, ?_⟩
    rw [← eraseIdx_idxOf_eq_erase, getElem?_eraseIdx_shiftIndex hjv]
    exact hget
  have hscheduled : p.locals.scheduledRunningReqs.Nodup := by
    rw [← hinv.scheduled_eq]
    exact hinv.books.scheduled_nodup
  cases htaken with
  | kept hnot =>
    intro r hr
    apply hshift hr
    rintro rfl
    exact hnot hr
  | unscheduled =>
    intro r hr
    rw [hscheduled.mem_erase_iff] at hr
    exact hshift hr.2 hr.1

/-- Preemption keeps the invariant: the victim waits, and the index follows the removal. -/
theorem RunningInv.preempt (hmem : victim ∈ p.sched.running)
    (htaken : Taken cfg p.locals (p.sched.running.idxOf victim) victim l)
    (hq : p.sched.requests.get? victim = some q) (hrequests : sched.requests =
      p.sched.requests.set victim (q.preempted cfg.requiresKvDelivery))
    (hrunning : sched.running = p.sched.running.erase victim)
    (hwaiting : sched.waiting.Perm (victim :: p.sched.waiting))
    (hskipped : sched.skippedWaiting = p.sched.skippedWaiting)
    (hnum : sched.numWaitingForStreamingInput = p.sched.numWaitingForStreamingInput) :
    RunningInv whole fair cfg budget
      ⟨sched, { l with preemptedReqs := l.preemptedReqs ++ [victim] }⟩ := by
  have hbefore := htaken.before hmem h
  have hbooks := h.books_taken htaken
  have haside : l.stepSkippedWaiting = p.locals.stepSkippedWaiting := by cases htaken <;> rfl
  have hlocals : l.scheduledNewReqs = [] ∧ l.scheduledResumedReqs = [] ∧
      l.preemptedReqs = p.locals.preemptedReqs := by
    cases htaken <;> exact ⟨h.noneNew, h.noneResumed, rfl⟩
  constructor
  · have hid := h.queued.ids victim q hq
    refine h.queued.preempt hq hmem hrequests hid rfl hrunning hwaiting ?_ hnum
    simp only [Pass.view, haside, hskipped]
  · rw [← hrunning] at hbooks
    exact { hbooks with }
  · rw [hrunning]
    exact hbefore
  · exact hlocals.1
  · exact hlocals.2.1
  · exact haside.trans h.noneAside
  · intro r hr
    apply hwaiting.mem_iff.mpr
    rw [hlocals.2.2, mem_append, mem_singleton] at hr
    obtain hr | rfl := hr
    · exact mem_cons_of_mem _ (h.preempted r hr)
    · exact mem_cons_self
  · intro hfair r hr y hy
    rw [hrunning, h.nodup.mem_erase_iff] at hr
    rw [hrequests, get?_set_of_ne hr.1] at hy
    exact h.inOrder hfair r hr.2 y hy
  · intro hfair r hr y hy
    rw [hrequests, get?_set] at hy
    split_ifs at hy with hself
    · cases hy
      exact h.inOrder hfair victim hmem q hq
    · apply h.ordered hfair r _ y hy
      simp only [Pass.view, haside, hskipped, mem_append, hwaiting.mem_iff,
        mem_cons] at hr ⊢
      tauto
end

/-- What a victim had used is free again. -/
theorem Taken.budgets {i : ℕ} (htaken : Taken cfg p.locals i victim l)
    (h : RunningInv whole fair cfg budget p) :
    p.locals.tokenBudget ≤ l.tokenBudget ∧ p.locals.inputBudget ≤ l.inputBudget := by
  cases htaken with
  | kept => exact ⟨le_rfl, le_rfl⟩
  | unscheduled _ j _ hj =>
    have hpos := h.books.counts victim j (get?_eq_some_iff.mp hj)
    dsimp only
    omega

theorem Aims.preempt (h : Aims fair cfg request k p) (hinv : RunningInv whole fair cfg budget p)
    (hne : victim ≠ request.requestId) (hmem : victim ∈ p.sched.running)
    (htaken : Taken cfg p.locals (p.sched.running.idxOf victim) victim l)
    (hrequests : sched.requests = p.sched.requests.set victim q)
    (hrunning : sched.running = p.sched.running.erase victim) :
    Aims fair cfg request k ⟨sched, { l with preemptedReqs := l.preemptedReqs ++ [victim] }⟩ := by
  have hindex : l.reqIndex = shiftIndex (p.sched.running.idxOf victim) p.locals.reqIndex := by
    cases htaken <;> rfl
  have hv : p.locals.reqIndex ≠ p.sched.running.idxOf victim := by
    intro heq
    have hcurrent := h.current
    rw [heq, getElem?_idxOf hmem] at hcurrent
    exact hne (Option.some.inj hcurrent)
  constructor
  · rw [hrunning]
    dsimp only
    rw [hindex, ← eraseIdx_idxOf_eq_erase, getElem?_eraseIdx_shiftIndex hv]
    exact h.current
  · rw [hrequests, get?_set_of_ne hne.symm]
    exact h.known
  · exact fun hfair => (h.tokens hfair).trans (htaken.budgets hinv).1
  · exact fun hfair => (h.inputs hfair).trans (htaken.budgets hinv).2

/-- The victim is another request, or the one that slots are wanted for. -/
theorem preemptVictim_spec (h : RunningInv whole fair cfg budget p)
    (haims : Aims fair cfg request k p) :
    Returns (preemptVictim cfg) p fun victim p' => RunningInv whole fair cfg budget p' ∧
      (victim ≠ request.requestId → Aims fair cfg request k p') := by
  have hindex : p.locals.reqIndex < p.sched.running.length :=
    (List.getElem?_eq_some_iff.mp haims.current).1
  refine returns_bind (returns_takeVictim h.nodup hindex h.before
    fun victim l hmem _ htaken => returns_bind (returns_onSched (returns_preemptRequest ?_)))
  intro q cache deferredFrees encoder waiting hq _ hwaiting
  exact ⟨h.preempt hmem htaken hq rfl rfl hwaiting rfl rfl,
    fun hne => haims.preempt h hne hmem htaken rfl rfl⟩

/-- Preempting until there are slots keeps the invariant, with one victim in each round. -/
theorem allocateRunning_spec (fuel : ℕ) (h : RunningInv whole fair cfg budget p)
    (haims : Aims fair cfg request k p) :
    Returns (allocateRunning cfg request k fuel) p fun taken p' =>
      RunningInv whole fair cfg budget p' ∧ (taken = true → Aims fair cfg request k p') := by
  induction fuel generalizing p with
  | zero => exact ⟨h, fun hbad => absurd hbad (by decide)⟩
  | succ fuel ih =>
    refine returns_bind (returns_onSched (returns_onCache fun taken cache => ?_))
    have hframe : RunningInv whole fair cfg budget { p with sched := { p.sched with cache } } :=
      h.frame {}
    have haims' : Aims fair cfg request k { p with sched := { p.sched with cache } } :=
      ⟨haims.current, haims.known, haims.tokens, haims.inputs⟩
    refine returns_ite (fun _ => ⟨hframe, fun _ => haims'⟩) fun _ => ?_
    refine (preemptVictim_spec hframe haims').bind fun victim p' ⟨hinv, haim⟩ => ?_
    refine returns_ite (fun _ => ⟨hinv, fun hbad => absurd hbad (by decide)⟩) fun hne => ?_
    exact ih hinv (haim hne)

/-- Drafts take at most all but one of the tokens. -/
theorem length_scheduledSpecTokens (hfresh : FreshDrafts cfg request) (hpos : 0 < k)
    (hsampled : 0 < cfg.numSampledTokensPerStep) :
    ((scheduledSpecTokens request k).length : ℤ) + 1 ≤ k := by
  unfold scheduledSpecTokens
  rw [length_take]
  by_cases hspec : request.specTokenIds = []
  · rw [hspec, length_nil]
    omega
  · have hlt := hfresh hsampled hspec
    omega

theorem Aims.notMem (haims : Aims fair cfg request k p) (h : RunningInv whole fair cfg budget p) :
    request.requestId ∉ p.locals.numScheduledTokens.keys := by
  intro hmem
  have hscheduled := h.books.keys.mem_iff.mp hmem
  rw [h.scheduled_eq] at hscheduled
  obtain ⟨j, hj, hget⟩ := h.before _ hscheduled
  obtain ⟨hlt, -⟩ := List.getElem?_eq_some_iff.mp hget
  have heq := (getElem?_inj hlt h.nodup).mp (hget.trans haims.current.symm)
  omega

section
variable (h : RunningInv whole fair cfg budget p)
include h

/-- The request is scheduled, and the books stay in order if its drafts are fresh. -/
theorem recordRunning_spec {pass : EncoderPass} (haims : Aims fair cfg request k p) (hpos : 0 < k) :
    Returns (recordRunning cfg request k pass) p fun _ p' =>
      request.requestId ∈ p'.locals.scheduledRunningReqs ∧
        ((fair → FreshDrafts cfg request) → RunningInv whole fair cfg budget p') := by
  have hmem : request.requestId ∈ p.sched.running := mem_of_getElem? haims.current
  have hrequest := fun hfair => h.inOrder hfair _ hmem request haims.known
  have hnot := haims.notMem h
  have hqueued : Queued whole cfg { p.view with
      requests := p.view.requests.set request.requestId { request with specTokenIds := [] } } :=
    h.queued.setData haims.known rfl rfl
  refine returns_modify (returns_bind (returns_onSched ?_))
  rw [Returns, modifyRequest, ensures_modify]
  simp only [SchedulerState.modifyRequest, haims.known]
  refine returns_commitEncoderInputs fun encoder inputs encoderComputeBudget hinputs =>
    ⟨mem_append_right _ (mem_singleton_self _), fun hfresh => ?_⟩
  constructor
  · exact hqueued.frame {}
  · apply Books.setEncoder _ (mem_keys_set.mpr (.inl rfl)) hinputs
    apply h.books.record hnot hpos haims.tokens haims.inputs rfl rfl rfl
    · simp only [Locals.scheduled, h.noneNew, h.noneResumed, append_nil]
      exact perm_append_singleton _ _
    · split_ifs with hnone
      · exact .inl rfl
      · exact .inr ⟨_, rfl, fun hfair => length_scheduledSpecTokens (hfresh hfair) hpos⟩
    · exact fun x hx => .inr hx
    · exact fun x hx => hx
    · exact hmem
  · intro r hr
    rw [mem_append, mem_singleton] at hr
    obtain hr | rfl := hr
    · obtain ⟨j, hj, hget⟩ := h.before r hr
      exact ⟨j, Nat.lt_succ_of_lt hj, hget⟩
    · exact ⟨_, Nat.lt_succ_self _, haims.current⟩
  · exact h.noneNew
  · exact h.noneResumed
  · exact h.noneAside
  · exact h.preempted
  · intro hfair r hr q hq
    rw [get?_set] at hq
    split_ifs at hq with hself
    · cases hq
      exact hrequest hfair
    · exact h.inOrder hfair r hr q hq
  · intro hfair r hr q hq
    rw [get?_set] at hq
    split_ifs at hq with hself
    · cases hq
      exact hrequest hfair
    · exact h.ordered hfair r hr q hq

theorem nextRunning_spec :
    Returns (nextRunning : PassM n m LoopControl) p fun _ => RunningInv whole fair cfg budget := by
  refine returns_modify { h with queued := h.queued, books := { h.books with }, before := ?_ }
  intro r hr
  obtain ⟨j, hj, hget⟩ := h.before r hr
  exact ⟨j, Nat.lt_succ_of_lt hj, hget⟩

/-- A pass schedules its request, skips it, or ends the loop. -/
theorem runningStep_spec {deferPrefills : Bool} {r : RequestId}
    (hcurrent : p.sched.running[p.locals.reqIndex]? = some r) :
    Returns (runningStep cfg env deferPrefills r) p fun _ p' =>
      (fair → r ∈ p'.locals.scheduledRunningReqs → ∀ q, p.sched.requests.get? r = some q →
        FreshDrafts cfg q) → RunningInv whole fair cfg budget p' := by
  have hmem : r ∈ p.sched.running := mem_of_getElem? hcurrent
  refine returns_get (returns_ite (fun _ _ => h) fun _ => ?_)
  refine returns_bind (returns_getRequestOfPass fun request hrequest => ?_)
  obtain rfl : request.requestId = r := h.queued.ids r request hrequest
  refine returns_ite (fun _ => (nextRunning_spec h).mono fun _ _ hinv _ => hinv) fun _ => ?_
  refine returns_bind (returns_planEncoderInputs fun pass encoder hpass => ?_)
  have hframe : RunningInv whole fair cfg budget { p with sched := { p.sched with encoder } } :=
    h.frame {}
  rw [Returns, ensures_ite]
  refine ⟨fun _ => (nextRunning_spec hframe).mono fun _ _ hinv _ => hinv, fun hne => ?_⟩
  have hpos := reservePrefillLookahead_nonneg cfg request request.numComputedTokens
    pass.numNewTokens
  have hchunk := reservePrefillLookahead_le cfg request request.numComputedTokens pass.numNewTokens
  have hwanted := runningTokens_le cfg request p.locals
  have hfits (hfair : fair) := hpass (h.inOrder hfair _ hmem request hrequest)
  have hchosen : Aims fair cfg request
      (cfg.reservePrefillLookahead request request.numComputedTokens pass.numNewTokens)
      { p with sched := { p.sched with encoder } } := by
    refine ⟨hcurrent, hrequest, fun hfair => ?_, fun hfair => ?_⟩ <;> have hle := hfits hfair <;>
      dsimp only <;> omega
  refine (allocateRunning_spec _ hframe hchosen).bind fun taken p' htried => ?_
  refine returns_ite (fun htaken => returns_bind ?_) fun _ _ => htried.1
  refine (recordRunning_spec htried.1 (htried.2 htaken) (by omega)).mono fun _ p'' hrecorded => ?_
  exact fun hfresh => hrecorded.2 fun hfair => hfresh hfair hrecorded.1 request hrequest
end

/-- The loop over the running requests keeps its invariant to the end. -/
theorem runningLoop_spec (deferPrefills : Bool) (fuel : ℕ)
    (h : RunningInv whole fair cfg budget p)
    (hfresh : fair → FreshVisits cfg env deferPrefills fuel p) :
    Returns (runningLoop cfg env deferPrefills fuel) p
      fun _ => RunningInv whole fair cfg budget := by
  induction fuel generalizing p with
  | zero => exact h
  | succ fuel ih =>
    refine returns_get ?_
    split
    · exact h
    · next r hcurrent =>
      refine returns_ite (fun hbudget => ?_) fun _ => h
      refine returns_bind (((runningStep_spec h hcurrent).and (ensures_run _ _)).weaken ?_)
      rintro control p' ⟨hinv, hrun⟩
      have hvisit (hfair : fair) := hfresh hfair r hcurrent hbudget control p' hrun
      have hinv' := hinv fun hfair => (hvisit hfair).1
      cases control with
      | next => exact ih hinv' fun hfair => (hvisit hfair).2 rfl
      | stop => exact hinv'

end Vllm.Scheduler
