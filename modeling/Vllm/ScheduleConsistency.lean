import Vllm.EngineRuns

/-!
The output of `schedule` along the runs of the engine: it is consistent and within
the budgets unless the call schedules drafts that have no token to verify them.
-/
namespace Vllm.Scheduler

open EncoderCache

variable {n m : ℕ} {cfg : SchedConfig m} {env : ScheduleEnv n m} {s : SchedulerState n m}

/-- The closing assertions of a call hold when its loops end, and an output that it
returns is consistent. -/
structure CallConsistent (cfg : SchedConfig m) (env : ScheduleEnv n m)
    (s : SchedulerState n m) : Prop where
  asserts : ∀ s₀ p, (startCall cfg).run s = .ok ⟨⟩ s₀ →
    (scheduleLoops cfg env).run ⟨s₀, startLocals cfg s₀⟩ = .ok ⟨⟩ p →
    (checkConstraints cfg).run p = .ok ⟨⟩ p
  output : ∀ out t, (schedule cfg env).run s = .ok out t →
    ∃ l, callLocals cfg env s = some l ∧ Consistent cfg l t out

theorem startLocals_tokenBudget_le (s : SchedulerState n m) :
    (startLocals cfg s).tokenBudget ≤ cfg.maxNumScheduledTokens := by
  unfold startLocals
  dsimp only
  split
  · exact Int.natCast_nonneg _
  · exact le_refl _

/-- From queues in order, a ready call passes its closing assertions. -/
theorem Queued.asserts (h : Queued False cfg s) (hready : StartsReady cfg env s)
    {s₀ : SchedulerState n m} {p : Pass n m} (hstart : (startCall cfg).run s = .ok ⟨⟩ s₀)
    (hloops : (scheduleLoops cfg env).run ⟨s₀, startLocals cfg s₀⟩ = .ok ⟨⟩ p) :
    (checkConstraints cfg).run p = .ok ⟨⟩ p := by
  have hstarted : Returns (startCall cfg) s fun _ s₀ => Queued False cfg s₀ := by
    apply returns_startCall
    intro cache
    exact Queued.congr h rfl rfl (.refl _) rfl
  have hended := (scheduleLoops_spec (hstarted.of_ok hstart)).of_ok hloops
  exact hended.checkConstraints (hready s₀ hstart) (startLocals_tokenBudget_le s₀)

/-- Stale drafts fill all the tokens of a chunk: a visit that schedules them leaves
no token to verify them with. -/
theorem le_length_scheduledSpecTokens {q : SchedRequest} {l : Locals} {k : ℤ}
    (hstale : ¬ FreshDrafts cfg q) (hk : k ≤ runningTokens cfg q l) :
    k ≤ (scheduledSpecTokens q k).length := by
  simp only [FreshDrafts, not_forall, not_lt] at hstale
  obtain ⟨-, -, hcomputed⟩ := hstale
  have hwanted := hk.trans (runningTokens_le cfg q l)
  unfold SchedRequest.numTokensWithSpec at hwanted
  unfold scheduledSpecTokens
  rw [List.length_take]
  omega

/-! ### The condition is decidable -/

instance (items : List EncoderInput) : Decidable (ItemsInOrder items) :=
  inferInstanceAs (Decidable (items.Pairwise _))

instance (q : SchedRequest) : Decidable (FreshDrafts cfg q) :=
  inferInstanceAs (Decidable (_ → _ → _ < _))

instance decidableForallReturned {σ ε α : Type} (r : EStateM.Result ε σ α) (P : α → σ → Prop)
    [∀ a t, Decidable (P a t)] : Decidable (∀ a t, r = .ok a t → P a t) :=
  match r with
  | .ok a t => decidable_of_iff (P a t)
      ⟨fun h _ _ heq => by cases heq; exact h, fun h => h a t rfl⟩
  | .error _ _ => .isTrue nofun

instance decidableForallSome {α : Type} (o : Option α) (P : α → Prop) [DecidablePred P] :
    Decidable (∀ a, o = some a → P a) :=
  inferInstanceAs (Decidable (∀ a ∈ o, P a))

instance decidableFreshVisits (deferPrefills : Bool) : ∀ (fuel : ℕ) (p : Pass n m),
    Decidable (FreshVisits cfg env deferPrefills fuel p)
  | 0, _ => .isTrue trivial
  | fuel + 1, p =>
    have := decidableFreshVisits deferPrefills fuel
    decidableForallSome p.sched.running[p.locals.reqIndex]? _

instance (s : SchedulerState n m) : Decidable (Ready cfg env s) :=
  decidable_of_iff ((∀ r ∈ s.running, ∀ q ∈ s.requests.get? r,
        ItemsInOrder q.encoderRequest.mmFeatures) ∧
      (∀ r ∈ s.waiting ++ s.skippedWaiting, ∀ q ∈ s.requests.get? r,
        ItemsInOrder q.encoderRequest.mmFeatures) ∧
      FreshVisits cfg env (defersPrefills env s) s.running.length ⟨s, startLocals cfg s⟩)
    ⟨fun h => ⟨h.1, h.2.1, h.2.2⟩, fun h => ⟨h.running, h.waiting, h.drafts⟩⟩

instance (s : SchedulerState n m) : Decidable (StartsReady cfg env s) :=
  decidable_of_iff (∀ a s₀, (startCall cfg).run s = .ok a s₀ → Ready cfg env s₀)
    ⟨fun h s₀ hs => h ⟨⟩ s₀ hs, fun h _ s₀ hs => h s₀ hs⟩

def draftConfig : SchedConfig 1 :=
  { smallConfig .fullAttention with
    speculative := some ⟨.eagle, Nat.succPNat 0, false⟩
    numSpecTokens := 1
    numLookaheadTokens := 1
    ppSize := 2 }

/-- A prompt gets its first token and a draft, and the draft is to be verified. -/
def verifyOps : List (Op 8 1) :=
  [.addRequest (promptRequest 0 [1, 2, 3] 4) fun _ => false, .schedule coldEnv,
    .updateFromOutput (sampled fun _ => [7]), .updateDraftTokenIds [(0, [9])]]

/-- A session stops at its first token, gets a draft and then its next prompt. The
draft made for the old end is still there after the prompt has been scheduled. -/
def staleDraftOps (prompt : List ℕ) : List (Op n 1) :=
  [.addRequest (sessionRequest 0 [1, 2, 3] 1) fun _ => false, .schedule coldEnv,
    .updateFromOutput (sampled fun _ => [7]), .updateDraftTokenIds [(0, [9])],
    .addRequest (sessionRequest 0 prompt 1) fun _ => false, .schedule coldEnv]

def schedulesDraftAlone (s : SchedulerState 8 1) : Prop :=
  ∃ x ∈ returned (schedule draftConfig coldEnv) s,
    x.1.scheduledSpecDecodeTokens.entries = [(0, [9])] ∧ x.1.numScheduledTokens.entries = [(0, 1)]

instance : DecidablePred schedulesDraftAlone := fun s =>
  inferInstanceAs (Decidable (∃ x ∈ returned (schedule draftConfig coldEnv) s, _ ∧ _))

end Vllm.Scheduler
