import Vllm.SchedulerRuns

/-!
Rules for the operations of the scheduler. The cache and the encoder manager are
changed in many places and nothing the scheduler counts depends on them, so a
rule asks for its postcondition under any cache and any encoder state. What an
operation may do to the queues and to the requests is said once here. A chunk
never grows on its way through the splits, provided that the multimodal items of
the request are in order.
-/
namespace Vllm.Scheduler

open Outcome CacheManagers KVCacheManager EncoderCache RequestQueue List

variable {n m : ℕ} {α : Type}

/-- Failures are not looked at. -/
abbrev Returns {σ α : Type} (op : EStateM Failure σ α) (s : σ) (Q : α → σ → Prop) : Prop :=
  Ensures op s Q fun _ _ => True

section
variable {σ β : Type} {s : σ} {op : EStateM Failure σ α} {f : α → EStateM Failure σ β}
  {Q : β → σ → Prop}

/-- The rule of sequence. -/
theorem returns_bind (h : Returns op s fun a t => Returns (f a) t Q) : Returns (op >>= f) s Q :=
  (ensures_bind ..).mpr h

theorem Returns.mono {P P' : α → σ → Prop} (h : Returns op s P) (hP : ∀ a t, P a t → P' a t) :
    Returns op s P' :=
  Ensures.mono h hP fun _ _ _ => trivial

variable {c : Prop} {P : α → σ → Prop} {e : Failure}

theorem Returns.bind (h : Returns op s P) (hf : ∀ a t, P a t → Returns (f a) t Q) :
    Returns (op >>= f) s Q :=
  returns_bind (h.mono hf)

theorem returns_any (h : ∀ a t, P a t) : Returns op s P :=
  .of_forall h fun _ _ => trivial

theorem returns_get {f : σ → EStateM Failure σ β} (h : Returns (f s) s Q) :
    Returns (get >>= f) s Q :=
  returns_bind h

theorem returns_modify {g : σ → σ} {f : PUnit → EStateM Failure σ β}
    (h : Returns (f ⟨⟩) (g s) Q) : Returns (modify g >>= f) s Q :=
  returns_bind h

/-- After a check its condition is known. -/
theorem returns_check [Decidable c] {f : PUnit → EStateM Failure σ β} (h : c → Returns (f ⟨⟩) s Q) :
    Returns (check c e >>= f) s Q :=
  returns_bind ((ensures_check ..).mpr ⟨h, fun _ => trivial⟩)

theorem returns_expect {o : Option α} (h : ∀ a, o = some a → Returns (f a) s Q) :
    Returns (expect o e >>= f) s Q :=
  returns_bind ((ensures_expect ..).mpr ⟨h, fun _ => trivial⟩)

theorem returns_ite [Decidable c] {op' : EStateM Failure σ α} (h : c → Returns op s P)
    (h' : ¬c → Returns op' s P) : Returns (if c then op else op') s P :=
  (ensures_ite ..).mpr ⟨h, h'⟩

theorem returns_onlyIf [Decidable c] {op : EStateM Failure σ PUnit} {P : PUnit → σ → Prop}
    (h : c → Returns op s P) (h' : ¬c → P ⟨⟩ s) : Returns (onlyIf c op) s P :=
  (ensures_onlyIf ..).mpr ⟨h, h'⟩

/-- The rule of loops, with an invariant. -/
theorem returns_forM {f : α → EStateM Failure σ PUnit} (I : σ → Prop) (l : List α)
    (hstep : ∀ a ∈ l, ∀ t, I t → Returns (f a) t fun _ => I) (hs : I s) :
    Returns (forM l f) s fun _ => I :=
  ensures_forM f l hstep s hs
end

/-! ### The cache and the encoder manager -/

section
variable {s : SchedulerState n m} {Q : α → SchedulerState n m → Prop}

/-- The cache may do what it likes with its own part of the state. -/
theorem returns_onCache {op : CacheM n m α} (h : ∀ a cache, Q a { s with cache }) :
    Returns (onCache op) s Q := by
  rw [Returns, onCache, ensures_zoom]
  exact returns_any h

theorem returns_onEncoder {op : EncoderM α} (h : ∀ a encoder, Q a { s with encoder }) :
    Returns (onEncoder op) s Q := by
  rw [Returns, onEncoder, ensures_zoom]
  exact returns_any h

variable {cfg : SchedConfig m} {r : RequestId} {Q : PUnit → SchedulerState n m → Prop}

theorem returns_getRequest {Q : SchedRequest → SchedulerState n m → Prop}
    (h : ∀ request, s.requests.get? r = some request → Q request s) :
    Returns (getRequest r) s Q :=
  returns_get ((ensures_expect ..).mpr ⟨h, fun _ => trivial⟩)

theorem returns_returnBlocks {blocks : List (Fin n)} (h : ∀ cache, Q ⟨⟩ { s with cache }) :
    Returns (returnBlocks blocks) s Q :=
  returns_onCache fun _ cache => h cache

theorem returns_freeRequestBlocks
    (h : ∀ cache deferredFrees, Q ⟨⟩ { s with cache, deferredFrees }) :
    Returns (freeRequestBlocks cfg r) s Q := by
  refine returns_bind (returns_getRequest fun request _ => returns_get (returns_ite ?_ ?_))
  · exact fun _ => returns_onCache fun _ cache => h cache s.deferredFrees
  · refine fun _ => returns_bind (returns_onCache fun blocks cache => returns_onlyIf ?_ ?_)
    · exact fun _ => h cache _
    · exact fun _ => h cache s.deferredFrees

/-- Preemption changes one request and puts it into the waiting queue. -/
theorem returns_preemptRequest {drop : Bool} (h : ∀ request cache deferredFrees encoder waiting,
      s.requests.get? r = some request → request.status = .running →
      waiting.Perm (r :: s.waiting) →
      Q ⟨⟩ { s with
        cache, deferredFrees, encoder, waiting
        inflightPrefills := s.inflightPrefills.erase r
        requests := s.requests.set r (request.preempted drop)
        resetPreemptedReqIds := r :: s.resetPreemptedReqIds }) :
    Returns (preemptRequest cfg r drop) s Q := by
  refine returns_bind (returns_getRequest fun request hrequest => returns_check fun hrunning => ?_)
  refine returns_bind (returns_freeRequestBlocks fun cache deferredFrees => ?_)
  refine returns_bind (returns_onEncoder fun _ encoder => returns_modify (returns_modify ?_))
  rw [Returns, ensures_modify]
  simp only [SchedulerState.modifyRequest, hrequest]
  exact h request cache deferredFrees encoder _ hrequest hrunning (prependRequest_perm ..)
end

/-! ### Passes -/

section
variable {p : Pass n m}

theorem returns_onSched {op : SchedM n m α} {Q : α → Pass n m → Prop}
    (h : Returns op p.sched fun a sched => Q a { p with sched }) : Returns (onSched op) p Q := by
  rw [Returns, onSched, ensures_zoom]
  exact h

theorem returns_getRequestOfPass {r : RequestId} {Q : SchedRequest → Pass n m → Prop}
    (h : ∀ request, p.sched.requests.get? r = some request → Q request p) :
    Returns (onSched (getRequest r)) p Q :=
  returns_onSched (returns_getRequest h)
end

/-! ### The size of a chunk -/

/-- The split only shortens a chunk. -/
theorem mambaBlockAlignedSplit_le (cfg : AlignedSplit.SplitConfig m) (r : CacheRequest)
    (chunk newLocal external : ℕ) :
    AlignedSplit.mambaBlockAlignedSplit cfg r chunk newLocal external ≤ chunk := by
  simp only [AlignedSplit.mambaBlockAlignedSplit]
  generalize r.numComputedTokens + newLocal + external = start
  split_ifs with hend
  · exact Nat.le_refl _
  · have halign : cfg.alignEnd r start (start + chunk) ≤ start + chunk := by
      simp only [AlignedSplit.SplitConfig.alignEnd]
      split_ifs
      · exact Nat.div_mul_le_self _ _
      · exact Nat.le_refl _
    have hstop := AlignedSplit.earliestStop_le_end
      (cfg.stops r (cfg.useInternalCheckpoint r start (start + chunk)) start
        (cfg.alignEnd r start (start + chunk))) start (cfg.alignEnd r start (start + chunk))
    omega

variable (cfg : SchedConfig m) (r : SchedRequest) (computed chunk : ℤ)

theorem alignedSplit_le (chunk : ℤ) (newLocal external : ℕ) :
    cfg.alignedSplit r chunk newLocal external ≤ max 0 chunk := by
  unfold SchedConfig.alignedSplit
  split_ifs with hpos hend
  · have hle := mambaBlockAlignedSplit_le cfg.split r.toCacheRequest chunk.toNat newLocal external
    omega
  · exact le_max_right _ _
  · exact le_max_left _ _

theorem reservePrefillLookahead_le :
    cfg.reservePrefillLookahead r computed chunk ≤ max 0 chunk := by
  simp only [SchedConfig.reservePrefillLookahead]
  split_ifs <;> omega

theorem reservePrefillLookahead_nonneg : 0 ≤ cfg.reservePrefillLookahead r computed chunk :=
  le_max_left _ _

/-- A running request asks for no more than the budgets have. -/
theorem runningTokens_le (l : Locals) :
    runningTokens cfg r l ≤
      max 0 (min (r.numTokensWithSpec + r.numOutputPlaceholders - r.numComputedTokens)
        (min l.tokenBudget (l.inputBudget - cfg.draftSlots))) := by
  have hmin (wanted : ℤ) (threshold : ℕ) (budget limit : ℤ) :
      min (min (if 0 < threshold ∧ (threshold : ℤ) < wanted then (threshold : ℤ) else wanted)
        budget) limit ≤ min wanted budget := by
    split_ifs <;> omega
  unfold runningTokens
  by_cases hsplit : cfg.needMambaBlockAlignedSplit = true
  · simp only [hsplit, if_true]
    exact (alignedSplit_le cfg r _ 0 0).trans (max_le_max_left 0 (hmin _ _ _ _))
  · simp only [hsplit]
    exact (hmin _ _ _ _).trans (le_max_right _ _)

/-! ### Encoder inputs -/

def ItemsInOrder (items : List EncoderInput) : Prop :=
  items.Pairwise fun f g => f.mmPosition.offset ≤ g.mmPosition.offset

/-- On sorted keys, the positions before the one found have smaller keys. -/
theorem key_lt_of_lt_bisectLeft {key : ℕ → ℤ} {x : ℤ} (size : ℕ)
    (hmono : ∀ i j, i ≤ j → j < size → key i ≤ key j) (fuel lo hi : ℕ) (hhi : hi ≤ size)
    (hlo : ∀ i < lo, key i < x) : ∀ i < bisectLeft key x fuel lo hi, key i < x := by
  induction fuel generalizing lo hi with
  | zero => exact hlo
  | succ fuel ih =>
    simp only [bisectLeft]
    split_ifs with hlt hkey
    · apply ih (((lo + hi) / 2) + 1) hi hhi
      intro i hi'
      exact (hmono i ((lo + hi) / 2) (by omega) (by omega)).trans_lt hkey
    · exact ih lo ((lo + hi) / 2) (by omega) hlo
    · exact hlo

variable {cfg : EncoderConfig} {c : EncoderChunk} {i : ℕ} {f : EncoderInput} {pass : EncoderPass}
  {t : EncoderManager}

section
variable (hordered : ItemsInOrder c.request.mmFeatures)
include hordered

/-- The items that a chunk reaches start before the end of its window. -/
theorem offset_lt_of_mem_inputs (hi : i ∈ c.inputs cfg) (hf : c.request.mmFeatures[i]? = some f) :
    (f.mmPosition.offset : ℤ) < c.windowEnd := by
  have hbound : i < (getMmFeaturesInWindow c.request.mmFeatures c.numComputedTokens
      c.windowEnd).2 := by
    simp only [EncoderChunk.inputs, mem_range'_1] at hi
    omega
  have hlt := key_lt_of_lt_bisectLeft c.request.mmFeatures.length ?_ _ _ _
    (Nat.le_refl _) (fun i hi => absurd hi (Nat.not_lt_zero i)) i hbound
  · simpa [hf] using hlt
  · intro i j hij hj
    obtain rfl | hlt := Nat.eq_or_lt_of_le hij
    · exact le_refl _
    · have hle := pairwise_iff_getElem.mp hordered i j (by omega) hj hlt
      simp only [getElem?_eq_getElem (Nat.lt_trans hlt hj), getElem?_eq_getElem hj,
        Option.map_some, Option.getD_some]
      omega

omit hordered in
theorem returns_feature {σ : Type} {request : EncoderRequest} {t : σ}
    {Q : EncoderInput → σ → Prop} (h : ∀ f, request.mmFeatures[i]? = some f → Q f t) :
    Returns (request.feature i) t Q := by
  rw [Returns, EncoderRequest.feature, ensures_expect]
  exact ⟨h, fun _ => trivial⟩

omit hordered in
theorem admitInput_le (hf : (f.mmPosition.offset : ℤ) < c.windowEnd)
    (hpass : pass.numNewTokens ≤ max 0 c.numNewTokens) :
    Returns (admitInput cfg c i f pass) t
      fun step _ => step.pass.numNewTokens ≤ max 0 c.numNewTokens := by
  unfold EncoderChunk.windowEnd at hf
  refine returns_ite (fun _ => ?_) fun _ => returns_bind (returns_any fun fits u => ?_)
  · simp only [Returns, ensures_pure, EncoderStep.pass]
    omega
  · refine returns_ite (fun _ => ?_) fun _ => returns_expect fun _ _ => ?_
    · simp only [Returns, ensures_pure, EncoderStep.pass]
      split_ifs <;> omega
    · exact returns_ite (fun _ => hpass) fun _ => returns_ite (fun _ => hpass) fun _ => hpass

theorem scheduleInput_le (hi : i ∈ c.inputs cfg)
    (hpass : pass.numNewTokens ≤ max 0 c.numNewTokens) :
    Returns (scheduleInput cfg c i pass) t
      fun step _ => step.pass.numNewTokens ≤ max 0 c.numNewTokens := by
  refine returns_bind (returns_feature fun f hf => ?_)
  have hadmit (t : EncoderManager) : Returns (admitInput cfg c i f pass) t
      fun step _ => step.pass.numNewTokens ≤ max 0 c.numNewTokens :=
    admitInput_le (offset_lt_of_mem_inputs hordered hi hf) hpass
  refine returns_ite (fun _ => ?_) fun _ => returns_ite (fun _ => hpass) fun _ => ?_
  · exact returns_ite (fun _ => returns_check fun _ => hpass) fun _ => hadmit t
  · exact returns_bind (returns_any fun _ u => returns_ite (fun _ => hpass) fun _ => hadmit u)

/-- Encoder inputs only shorten a chunk. -/
theorem scheduleInputs_le (inputs : List ℕ) (hinputs : ∀ i ∈ inputs, i ∈ c.inputs cfg)
    (pass : EncoderPass) (t : EncoderManager) (hpass : pass.numNewTokens ≤ max 0 c.numNewTokens) :
    Returns (scheduleInputs cfg c inputs pass) t
      fun pass _ => pass.numNewTokens ≤ max 0 c.numNewTokens := by
  induction inputs generalizing pass t with
  | nil => exact hpass
  | cons i inputs ih =>
    refine (scheduleInput_le hordered (hinputs i mem_cons_self) hpass).bind ?_
    intro step u hstep
    cases step with
    | next pass => exact ih (fun j hj => hinputs j (mem_cons_of_mem i hj)) pass u hstep
    | done pass => exact hstep

theorem tryScheduleEncoderInputs_le {budget : ℤ} : Returns (tryScheduleEncoderInputs cfg c budget) t
      fun pass _ => pass.numNewTokens ≤ max 0 c.numNewTokens :=
  returns_ite (fun _ => le_max_right _ _) fun _ =>
    scheduleInputs_le hordered _ (fun _ hi => hi) _ t (le_max_right _ _)
end

/-! ### Encoder inputs of a pass -/

variable {cfg : SchedConfig m} {env : ScheduleEnv n m} {p : Pass n m} {request : SchedRequest}

theorem returns_planEncoderInputs {computed chunk : ℤ} {Q : EncoderPass → Pass n m → Prop}
    (h : ∀ (pass : EncoderPass) encoder,
      (ItemsInOrder request.encoderRequest.mmFeatures → pass.numNewTokens ≤ max 0 chunk) →
      Q pass { p with sched := { p.sched with encoder } }) :
    Returns (planEncoderInputs cfg env request computed chunk) p Q := by
  refine returns_get (returns_ite (fun _ => ?_) fun _ => returns_onSched ?_)
  · exact h _ p.sched.encoder fun _ => le_max_right _ _
  · rw [Returns, onEncoder, ensures_zoom]
    by_cases hordered : ItemsInOrder request.encoderRequest.mmFeatures
    · refine Returns.mono (tryScheduleEncoderInputs_le hordered) fun pass encoder hpass => ?_
      exact h pass encoder fun _ => hpass
    · exact returns_any fun pass encoder => h pass encoder fun hbad => absurd hbad hordered

theorem returns_allocateInputs (inputs : List ℕ) {Q : PUnit → Pass n m → Prop}
    (h : ∀ encoder, Q ⟨⟩ { p with sched := { p.sched with encoder } }) :
    Returns (forM inputs fun i =>
      onSched (onEncoder (EncoderManager.allocate request.encoderRequest i))) p Q := by
  refine (returns_forM (fun q => ∃ encoder, q = { p with sched := { p.sched with encoder } })
    inputs ?_ ⟨p.sched.encoder, rfl⟩).mono ?_
  · rintro i _ q ⟨encoder, rfl⟩
    exact returns_onSched (returns_onEncoder fun _ encoder' => ⟨encoder', rfl⟩)
  · rintro _ q ⟨encoder, rfl⟩
    exact h encoder

/-- Of the local variables only the encoder budget and the inputs of the request
change. -/
theorem returns_commitEncoderInputs {Q : PUnit → Pass n m → Prop}
    (h : ∀ encoder inputs budget, (inputs = p.locals.scheduledEncoderInputs ∨
        ∃ ids, inputs = p.locals.scheduledEncoderInputs.set request.requestId ids) →
      Q ⟨⟩ { sched := { p.sched with encoder }
             locals := { p.locals with
              scheduledEncoderInputs := inputs, encoderComputeBudget := budget } }) :
    Returns (commitEncoderInputs request pass) p Q := by
  refine returns_bind (returns_onlyIf (fun _ => returns_modify ?_) fun _ => ?_)
  · refine returns_bind (returns_allocateInputs _ fun encoder => ?_)
    exact returns_allocateInputs _ fun encoder' => h encoder' _ _ (.inr ⟨_, rfl⟩)
  · exact returns_allocateInputs _ fun encoder => h encoder _ _ (.inl rfl)

end Vllm.Scheduler
