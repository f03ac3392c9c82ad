import Vllm.EventDeltas

/-!
Which text of a request reaches the client. In a step with a tool call to send,
text after the first tool event is parked, and so is all text that was parked
before. What is still parked after the last step is lost, and parked text that
goes out late changes places with later text. Neither happens if a step with a
tool event has visible text on one side of it only, and the last one none to
park.
-/
namespace Vllm.ParserEngine

open Outcome PyText List

variable {cfg : ParserEngineConfig} {n : ℕ} {events : List SemanticEvent}

/-! ### The handlers of tool events -/

section
variable {α β : Type} {idx : ℤ}

/-- On a state that has the slot the computation returns and opens no slot. -/
def Handles (idx : ℤ) (m : EStateM Failure ToolState α) : Prop :=
  ∀ s : ToolState, 0 ≤ idx → idx < s.toolSlots.length →
    Ensures m s (fun _ t => t.toolSlots.length = s.toolSlots.length) (fun _ _ => False)

theorem handles_pure (a : α) : Handles idx (pure a) := fun _ _ _ => rfl

/-- Handlers compose. -/
theorem Handles.bind {m : EStateM Failure ToolState α} {f : α → EStateM Failure ToolState β}
    (hm : Handles idx m) (hf : ∀ a, Handles idx (f a)) : Handles idx (m >>= f) := by
  intro s h0 hlt
  rw [ensures_bind]
  refine (hm s h0 hlt).imp ?_
  intro a t ht
  refine (hf a t h0 (ht ▸ hlt)).imp ?_
  intro b u hu
  rw [hu, ht]

theorem handles_get : Handles idx (get : EStateM Failure ToolState ToolState) := fun _ _ _ => rfl

variable (event : SemanticEvent) (name : List Char) {c : Prop}

theorem handles_ite [Decidable c] {m k : EStateM Failure ToolState α} (hm : Handles idx m)
    (hk : Handles idx k) : Handles idx (if c then m else k) := by
  split_ifs
  · exact hm
  · exact hk

theorem handles_onlyIf [Decidable c] {m : EStateM Failure ToolState PUnit} (hm : Handles idx m) :
    Handles idx (onlyIf c m) :=
  handles_ite hm (handles_pure _)

theorem position_eq_some {length : ℕ} (h0 : 0 ≤ idx) (hlt : idx < length) :
    position length idx = some idx.toNat := by
  rw [position, if_pos h0, if_pos hlt]

theorem handles_getSlot : Handles idx (getSlot idx) := by
  intro s h0 hlt
  rw [getSlot, ensures_bind, ensures_get, ensures_expect, position_eq_some h0 hlt]
  refine ⟨fun _ _ => rfl, fun h => ?_⟩
  have hle := getElem?_eq_none_iff.mp h
  omega

theorem handles_modifySlot (f : ToolCallSlot → ToolCallSlot) : Handles idx (modifySlot idx f) := by
  intro s h0 hlt
  rw [modifySlot, ensures_bind, ensures_get, ensures_bind, ensures_expect, position_eq_some h0 hlt]
  refine ⟨fun i _ => ?_, fun h => ?_⟩
  · rw [ensures_set, length_modify]
  · cases h

theorem handles_ensureToolId : Handles idx (ensureToolId cfg idx name) := by
  apply handles_getSlot.bind
  intro slot
  apply handles_onlyIf
  apply handles_get.bind
  intro s
  exact (handles_modifySlot _).bind fun _ _ _ _ => rfl

theorem handles_sendName : Handles idx (sendName cfg idx name) :=
  (handles_modifySlot _).bind fun _ => (handles_ensureToolId name).bind fun _ => handles_getSlot

theorem handles_emitNameDelta (name : Option (List Char)) :
    Handles idx (emitNameDelta cfg idx name) := by
  unfold emitNameDelta
  split
  · exact handles_pure _
  · apply handles_ite
    · exact (handles_sendName _).bind fun _ => handles_pure _
    · exact handles_pure _

theorem handles_computeArgDelta (rawDelta : List Char) :
    Handles idx (computeArgDelta cfg idx rawDelta) := by
  unfold computeArgDelta
  split
  · exact handles_pure _
  · apply handles_ite (handles_pure _)
    apply handles_ite (handles_pure _)
    apply handles_getSlot.bind
    intro slot
    split
    · exact handles_pure _
    · apply handles_ite (handles_pure _)
      apply handles_ite (handles_pure _)
      exact (handles_modifySlot _).bind fun _ => handles_pure _

theorem handles_flushArgConverter : Handles idx (flushArgConverter cfg idx) := by
  unfold flushArgConverter
  split
  · exact handles_pure _
  · apply handles_getSlot.bind
    intro slot
    split
    · exact handles_pure _
    · apply handles_ite
      · exact (handles_modifySlot _).bind fun _ => handles_pure _
      · exact handles_pure _

theorem handles_handleArgChunk : Handles event.toolIndex (handleArgChunk cfg event) := by
  apply (handles_modifySlot _).bind
  intro _
  apply handles_getSlot.bind
  intro slot
  apply handles_ite
  · apply handles_ite (handles_emitNameDelta _)
    exact handles_ite (handles_emitNameDelta _) (handles_pure _)
  · apply handles_ite _ (handles_pure _)
    apply (handles_computeArgDelta _).bind
    intro argDelta
    split
    · exact handles_pure _
    · exact handles_ite (handles_pure _) (handles_pure _)

theorem handles_handleToolEnd : Handles event.toolIndex (handleToolEnd cfg event) := by
  apply handles_get.bind
  intro s
  apply handles_ite (handles_pure _)
  apply (handles_onlyIf (handles_modifySlot _)).bind
  intro _
  apply handles_flushArgConverter.bind
  intro remaining
  apply handles_getSlot.bind
  intro slot
  apply handles_ite
  · exact (handles_sendName _).bind fun _ => handles_pure _
  · split
    · exact handles_ite (handles_pure _) (handles_pure _)
    · exact handles_pure _
end

/-! ### The text of a step -/

def SemanticEvent.isTool (event : SemanticEvent) : Bool :=
  event.type = .toolCallStart || event.type = .toolName || event.type = .argValueChunk ||
    event.type = .toolCallEnd

def textOf (events : List SemanticEvent) : List Char :=
  events.flatMap fun event => if event.type = .textChunk then event.value else []

def textBefore (events : List SemanticEvent) : List Char :=
  textOf (events.takeWhile fun event => !event.isTool)

def textAfter (events : List SemanticEvent) : List Char :=
  textOf (events.dropWhile fun event => !event.isTool)

/-- The events carry the index of the call that was opened last, as the engine numbers
them; `n` calls were opened before. -/
def Numbered : ℕ → List SemanticEvent → Prop
  | _, [] => True
  | n, event :: events =>
    match event.type with
    | .toolCallStart => event.toolIndex = n ∧ Numbered (n + 1) events
    | .toolName | .argValueChunk | .toolCallEnd =>
      0 < n ∧ event.toolIndex = (n : ℤ) - 1 ∧ Numbered n events
    | _ => Numbered n events

def opened (n : ℕ) (events : List SemanticEvent) : ℕ :=
  n + events.countP fun event => event.type = .toolCallStart

theorem textOf_append (events events' : List SemanticEvent) :
    textOf (events ++ events') = textOf events ++ textOf events' :=
  flatMap_append ..

/-- The first tool event divides the text of a step. -/
theorem textBefore_append_textAfter (events : List SemanticEvent) :
    textBefore events ++ textAfter events = textOf events := by
  rw [textBefore, textAfter, ← textOf_append, takeWhile_append_dropWhile]

theorem opened_cons (n : ℕ) (event : SemanticEvent) (events : List SemanticEvent) :
    opened n (event :: events) = opened (opened n [event]) events := by
  unfold opened
  rw [← singleton_append, countP_append, Nat.add_assoc]

theorem numbered_append {events' : List SemanticEvent} :
    Numbered n (events ++ events') ↔ Numbered n events ∧ Numbered (opened n events) events' := by
  induction events generalizing n with
  | nil =>
    simp [Numbered, opened]
  | cons event events ih =>
    obtain ⟨type, value, idx⟩ := event
    cases type <;> simp [Numbered, opened, ih, and_assoc, Nat.add_assoc, Nat.add_comm 1]

/-- A numbered tool event finds its slot or opens the next one. -/
theorem handleToolEvent_spec {event : SemanticEvent} {s : ToolState}
    (hnum : Numbered n [event]) (hlen : s.toolSlots.length = n) :
    Ensures (handleToolEvent cfg event) s
      (fun _ t => t.toolSlots.length = opened n [event]) (fun _ _ => False) := by
  obtain ⟨type, value, idx⟩ := event
  have hother : ∀ {m : EStateM Failure ToolState (List DeltaToolCall)}, Handles idx m →
      0 < n ∧ idx = (n : ℤ) - 1 ∧ True →
      Ensures m s (fun _ t => t.toolSlots.length = n) (fun _ _ => False) := by
    intro m hm hidx
    refine (hm s (by omega) (by omega)).imp ?_
    intro _ t ht
    rw [ht, hlen]
  cases type with
  | toolCallStart =>
    obtain ⟨hidx, -⟩ := hnum
    dsimp only at hidx
    simp only [handleToolEvent, ensureSlot, ensures_bind, ensures_modify, ensures_pure,
      length_append, length_replicate, opened, countP_singleton]
    rw [hlen, hidx]
    simp
  | toolName =>
    exact hother ((handles_modifySlot _).bind fun _ => handles_pure _) hnum
  | argValueChunk => exact hother (handles_handleArgChunk ⟨.argValueChunk, value, idx⟩) hnum
  | toolCallEnd => exact hother (handles_handleToolEnd ⟨.toolCallEnd, value, idx⟩) hnum
  | textChunk | reasoningStart | reasoningChunk | reasoningEnd => exact hlen

variable (event : SemanticEvent) (parts : DeltaParts) {finished : Bool} (s : Parser)

/-- One event: a tool event marks the step, text goes out or is parked. -/
theorem applyEvent_spec (hnum : Numbered n [event]) (hlen : s.tools.toolSlots.length = n)
    (hsuppress : s.suppressToolCalls = false) :
    Ensures (applyEvent cfg parts event) s
      (fun parts' t =>
        parts'.content = parts.content ++ (if parts.seenToolEvent then [] else textOf [event]) ∧
          parts'.seenToolEvent = (parts.seenToolEvent || event.isTool) ∧
          t.deferredContent =
            s.deferredContent ++ (if parts.seenToolEvent then textOf [event] else []) ∧
          t.contentHasNonws = s.contentHasNonws ∧ t.suppressToolCalls = false ∧
          t.tools.toolSlots.length = opened n [event])
      (fun _ _ => False) := by
  have htool : Ensures (handleToolEvent cfg event) s.tools
      (fun _ t => t.toolSlots.length = opened n [event]) (fun _ _ => False) :=
    handleToolEvent_spec hnum hlen
  obtain ⟨type, value, idx⟩ := event
  cases type with
  | textChunk =>
    simp only [applyEvent, ensures_ite, ensures_bind, ensures_modify, ensures_pure]
    constructor
    · intro hseen
      simp [hseen, textOf, SemanticEvent.isTool, opened, hlen, hsuppress]
    · intro hseen
      simp [hseen, textOf, SemanticEvent.isTool, opened, hlen, hsuppress]
  | reasoningStart | reasoningChunk | reasoningEnd =>
    simp only [applyEvent, ensures_pure]
    simp [textOf, SemanticEvent.isTool, opened, hlen, hsuppress]
  | toolCallStart | toolName | argValueChunk | toolCallEnd =>
    simp only [applyEvent, ensures_bind, ensures_get, hsuppress, Bool.false_eq_true, if_false,
      onTools, ensures_zoom, ensures_pure]
    refine htool.imp ?_
    intro deltas t ht
    refine ⟨?_, ?_, ?_, trivial, trivial, ht⟩
    · simp [textOf]
    · simp [SemanticEvent.isTool]
    · simp [textOf]

theorem textBefore_cons (events : List SemanticEvent) : textBefore (event :: events) =
      if event.isTool then [] else textOf [event] ++ textBefore events := by
  unfold textBefore
  by_cases h : event.isTool
  · simp [h, textOf]
  · simp [h, textOf]

theorem textOf_of_isTool {event : SemanticEvent} (h : event.isTool) : textOf [event] = [] := by
  obtain ⟨type, value, idx⟩ := event
  cases type <;> simp_all [SemanticEvent.isTool, textOf]

theorem textAfter_cons (events : List SemanticEvent) :
    textAfter (event :: events) = if event.isTool then textOf events else textAfter events := by
  unfold textAfter
  by_cases h : event.isTool
  · rw [if_pos h, dropWhile_cons_of_neg (by simpa using h), ← singleton_append,
      textOf_append, textOf_of_isTool h, nil_append]
  · rw [if_neg h, dropWhile_cons_of_pos (by simpa using h)]

/-- All text of the events is collected, with what stood before the first tool event. -/
theorem applyEvents_spec (events : List SemanticEvent) (parts : DeltaParts) (s : Parser)
    (hnum : Numbered n events) (hlen : s.tools.toolSlots.length = n)
    (hsuppress : s.suppressToolCalls = false) :
    Ensures (events.foldlM (applyEvent cfg) parts) s
      (fun parts' t =>
        parts'.content = parts.content ++ (if parts.seenToolEvent then [] else textBefore events) ∧
          parts'.seenToolEvent = (parts.seenToolEvent || events.any SemanticEvent.isTool) ∧
          t.deferredContent =
            s.deferredContent ++ (if parts.seenToolEvent then textOf events else textAfter events) ∧
          t.contentHasNonws = s.contentHasNonws ∧ t.suppressToolCalls = false ∧
          t.tools.toolSlots.length = opened n events)
      (fun _ _ => False) := by
  induction events generalizing parts s n with
  | nil =>
    rw [foldlM_nil, ensures_pure]
    simp [textBefore, textAfter, textOf, opened, hlen, hsuppress]
  | cons event events ih =>
    rw [← singleton_append, numbered_append] at hnum
    rw [foldlM_cons, ensures_bind]
    refine (applyEvent_spec event parts s hnum.1 hlen hsuppress).imp ?_
    intro parts₁ t₁ h₁
    obtain ⟨hcontent, hseen, hdeferred, hnonws, hsuppress₁, hlen₁⟩ := h₁
    refine (ih parts₁ t₁ hnum.2 hlen₁ hsuppress₁).imp ?_
    intro parts₂ t₂ h₂
    obtain ⟨hcontent', hseen', hdeferred', hnonws', hsuppress', hlen'⟩ := h₂
    have htext := textOf_append [event] events
    rw [singleton_append] at htext
    refine ⟨?_, ?_, ?_, hnonws'.trans hnonws, hsuppress', ?_⟩
    · rw [hcontent', hcontent, hseen, textBefore_cons]
      by_cases hs : parts.seenToolEvent
      · simp [hs]
      · by_cases ht : event.isTool
        · simp [hs, ht, textOf_of_isTool ht]
        · simp [hs, ht]
    · rw [hseen', hseen, any_cons, Bool.or_assoc]
    · rw [hdeferred', hdeferred, hseen, textAfter_cons]
      by_cases hs : parts.seenToolEvent
      · simp [hs, htext]
      · by_cases ht : event.isTool
        · simp [hs, ht]
        · simp [hs, ht]
    · exact hlen'.trans (opened_cons n event events).symm

/-! ### Whole steps -/

/-- A step with a tool event has visible text on one side of it only: before it, or parked and
after it. The last step has none to park. -/
def Undivided (s : Parser) (events : List SemanticEvent) (finished : Bool) : Prop :=
  events.any SemanticEvent.isTool →
    (Blank (textBefore events) ∧ finished = false) ∨ Blank (s.deferredContent ++ textAfter events)

def contentOf (delta : Option DeltaMessage) : List Char :=
  (delta.bind DeltaMessage.content).getD []

/-- Parked text is released in front of the content, or stays parked. -/
theorem releaseDeferred_spec : Ensures (releaseDeferred parts) s
      (fun content t =>
        t.contentHasNonws = s.contentHasNonws ∧ t.suppressToolCalls = s.suppressToolCalls ∧
          t.tools = s.tools ∧
          ((content = s.deferredContent ++ parts.content ∧ t.deferredContent = []) ∨
            (parts.seenToolEvent ∧ content = parts.content ∧
              t.deferredContent = s.deferredContent)))
      (fun _ _ => False) := by
  rw [releaseDeferred, ensures_bind, ensures_get, ensures_ite]
  constructor
  · intro _
    rw [ensures_bind, ensures_set, ensures_pure]
    exact ⟨rfl, rfl, rfl, .inl ⟨rfl, rfl⟩⟩
  · intro h
    rw [ensures_pure]
    refine ⟨rfl, rfl, rfl, ?_⟩
    by_cases hseen : parts.seenToolEvent
    · exact .inr ⟨hseen, rfl, rfl⟩
    · have hempty : s.deferredContent = [] := by
        by_contra hne
        exact h ⟨hne, .inl (by simpa using hseen)⟩
      exact .inl ⟨by rw [hempty, nil_append], hempty⟩

/-- Nothing visible is held back, and nothing at all after the last step or a tool call. -/
theorem holdWhitespace_spec (finished : Bool) (content : List Char) (s : Parser) :
    Ensures (holdWhitespace cfg finished content) s
      (fun content' t =>
        squeeze content' = squeeze content ∧ t.suppressToolCalls = s.suppressToolCalls ∧
          t.tools = s.tools ∧
          (t.deferredContent = s.deferredContent ∨
            (s.tools.toolSlots = [] ∧ finished = false ∧ Blank t.deferredContent)))
      (fun _ _ => False) := by
  rw [holdWhitespace, ensures_bind, ensures_get, ensures_ite]
  refine ⟨fun _ => ⟨rfl, rfl, rfl, .inl rfl⟩, fun _ => ?_⟩
  rw [ensures_ite]
  refine ⟨fun _ => ⟨rfl, rfl, rfl, .inl rfl⟩, fun hstrip => ?_⟩
  have hblank : Blank content := strip_eq_nil_iff.mp (not_not.mp hstrip)
  have hsqueeze : squeeze [] = squeeze content := by
    rw [hblank, squeeze_nil]
  rw [ensures_ite]
  refine ⟨fun _ => ?_, fun hslots => ?_⟩
  · rw [ensures_ite]
    exact ⟨fun _ => ⟨hsqueeze, rfl, rfl, .inl rfl⟩, fun _ => ⟨rfl, rfl, rfl, .inl rfl⟩⟩
  · rw [ensures_ite]
    refine ⟨fun hfinished => ⟨hsqueeze, rfl, rfl, .inr ?_⟩, fun _ => ⟨rfl, rfl, rfl, .inl rfl⟩⟩
    exact ⟨not_not.mp hslots, by simpa using hfinished, hblank⟩

/-- Visible text on one side only: the order of the sides does not matter. -/
theorem squeeze_sides {before parked after : List Char}
    (h : Blank before ∨ Blank (parked ++ after)) :
    squeeze (parked ++ after ++ before) = squeeze (parked ++ (before ++ after)) ∧
      squeeze (before ++ (parked ++ after)) = squeeze (parked ++ (before ++ after)) := by
  simp only [squeeze_append]
  cases h with
  | inl hbefore =>
    rw [hbefore]
    simp
  | inr hafter =>
    obtain ⟨hparked, hafter⟩ := blank_append.mp hafter
    rw [hparked, hafter]
    simp

theorem textAfter_of_not_any
    (h : ¬ events.any SemanticEvent.isTool) : textAfter events = [] := by
  have hall : ∀ event ∈ events, (!event.isTool) = true := by
    intro event hmem
    by_contra htool
    exact h (any_eq_true.mpr ⟨event, hmem, by simpa using htool⟩)
  rw [textAfter, dropWhile_eq_nil_iff.mpr hall]
  rfl

theorem opened_pos (hnum : Numbered n events)
    (h : events.any SemanticEvent.isTool) : 0 < opened n events := by
  induction events generalizing n with
  | nil => cases h
  | cons event events ih =>
    rw [← singleton_append, numbered_append] at hnum
    rw [opened_cons]
    by_cases htool : event.isTool
    · have hpos : 0 < opened n [event] := by
        obtain ⟨type, value, idx⟩ := event
        cases type with
        | toolCallStart => simp [opened]
        | toolName | argValueChunk | toolCallEnd => exact Nat.lt_add_right _ hnum.1.1
        | textChunk | reasoningStart | reasoningChunk | reasoningEnd => cases htool
      exact Nat.lt_add_right _ hpos
    · rw [any_cons, Bool.or_eq_true] at h
      exact ih hnum.2 (h.resolve_left htool)

/-- Releasing or parking keeps the visible text of a step that has it on one side. -/
theorem release_keeps {s : Parser} {content deferred : List Char}
    (hundivided : Undivided s events finished)
    (hrelease : (content = s.deferredContent ++ textAfter events ++ textBefore events ∧
        deferred = []) ∨
      (events.any SemanticEvent.isTool ∧ content = textBefore events ∧
        deferred = s.deferredContent ++ textAfter events)) :
    squeeze (content ++ deferred) = squeeze (s.deferredContent ++ textOf events) ∧
      (finished → Blank deferred) ∧ (deferred = [] ∨ events.any SemanticEvent.isTool) := by
  rw [← textBefore_append_textAfter]
  cases hrelease with
  | inl h =>
    obtain ⟨rfl, rfl⟩ := h
    refine ⟨?_, fun _ => rfl, .inl rfl⟩
    rw [append_nil]
    by_cases htool : events.any SemanticEvent.isTool
    · exact (squeeze_sides ((hundivided htool).imp_left And.left)).1
    · rw [textAfter_of_not_any htool, append_nil, append_nil]
  | inr h =>
    obtain ⟨htool, rfl, rfl⟩ := h
    refine ⟨(squeeze_sides ((hundivided htool).imp_left And.left)).2, ?_, .inr htool⟩
    intro hfinished
    refine (hundivided htool).resolve_left ?_
    intro hbefore
    rw [hfinished] at hbefore
    cases hbefore.2

/-- A step keeps the visible text: what goes out and what is parked is what was parked and
what has come. -/
theorem eventsToDelta_spec {s : Parser} (hnum : Numbered n events)
    (hlen : s.tools.toolSlots.length = n) (hsuppress : s.suppressToolCalls = false)
    (hundivided : Undivided s events finished) :
    Ensures (eventsToDelta cfg events finished) s
      (fun delta t =>
        squeeze (contentOf delta ++ t.deferredContent) =
            squeeze (s.deferredContent ++ textOf events) ∧
          (finished → Blank t.deferredContent) ∧ t.suppressToolCalls = false ∧
          t.tools.toolSlots.length = opened n events)
      (fun _ _ => False) := by
  simp only [eventsToDelta, ensures_bind, ensures_get, ensures_ite, ensures_pure]
  constructor
  · intro hidle
    obtain ⟨rfl, hempty⟩ := hidle
    simp [contentOf, hempty, textOf, opened, hlen, hsuppress, Blank]
  · intro _
    refine (applyEvents_spec events .empty s hnum hlen hsuppress).imp ?_
    intro parts t₁ h₁
    obtain ⟨hcontent, hseen, hdeferred, -, hsuppress₁, hlen₁⟩ := h₁
    simp only [DeltaParts.empty, nil_append, Bool.false_eq_true, if_false,
      Bool.false_or] at hcontent hseen hdeferred
    refine (releaseDeferred_spec parts t₁).imp ?_
    intro content t₂ h₂
    obtain ⟨-, hsuppress₂, htools₂, hrelease⟩ := h₂
    refine (holdWhitespace_spec finished content t₂).imp ?_
    intro content' t₃ h₃
    obtain ⟨hsqueeze, hsuppress₃, htools₃, hhold⟩ := h₃
    rw [hdeferred, hcontent, hseen] at hrelease
    obtain ⟨hkept, hparked, hslots⟩ := release_keeps hundivided hrelease
    have hkept' : squeeze (content' ++ t₃.deferredContent) =
        squeeze (s.deferredContent ++ textOf events) ∧ (finished → Blank t₃.deferredContent) := by
      rw [← hkept, squeeze_append, squeeze_append, hsqueeze]
      cases hhold with
      | inl hsame =>
        rw [hsame]
        exact ⟨rfl, hparked⟩
      | inr hheld =>
        -- whitespace is held only while no call is open, so nothing was parked
        obtain ⟨hnone, hfinished, hblank⟩ := hheld
        have hempty : t₂.deferredContent = [] := by
          refine hslots.resolve_right ?_
          intro htool
          have hpos := opened_pos hnum htool
          rw [← hlen₁, ← htools₂, hnone] at hpos
          cases hpos
        rw [hempty, hblank]
        exact ⟨rfl, fun h => absurd h (by simp [hfinished])⟩
    have hlen₃ : t₃.tools.toolSlots.length = opened n events := by
      rw [htools₃, htools₂, hlen₁]
    have hsuppress' : t₃.suppressToolCalls = false := by
      rw [hsuppress₃, hsuppress₂, hsuppress₁]
    constructor
    · intro _
      have hcontentOf : ∀ reasoning calls, contentOf (some ⟨nonempty content', reasoning, calls⟩) =
          content' := by
        intro reasoning calls
        unfold contentOf nonempty
        by_cases hempty : content' = []
        · simp [hempty]
        · simp [hempty]
      rw [hcontentOf]
      exact ⟨hkept'.1, hkept'.2, hsuppress', hlen₃⟩
    · intro hnothing
      have hempty : content' = [] := by
        by_contra hne
        exact hnothing (.inl hne)
      rw [hempty] at hkept'
      exact ⟨hkept'.1, hkept'.2, hsuppress', hlen₃⟩

/-! ### Whole requests -/

def eventsToDeltas (cfg : ParserEngineConfig) :
    List (List SemanticEvent) → EStateM Failure Parser (List (Option DeltaMessage))
  | [] => return []
  | events :: steps => do
    let delta ← eventsToDelta cfg events steps.isEmpty
    let deltas ← eventsToDeltas cfg steps
    return delta :: deltas

def UndividedRun (cfg : ParserEngineConfig) : Parser → List (List SemanticEvent) → Prop
  | _, [] => True
  | s, events :: steps =>
    Undivided s events steps.isEmpty ∧
      ∀ delta t, (eventsToDelta cfg events steps.isEmpty).run s = .ok delta t →
        UndividedRun cfg t steps

/-- Sent and parked text together are the text of the steps so far. -/
theorem eventsToDeltas_spec {steps : List (List SemanticEvent)} {s : Parser}
    (hnum : Numbered n steps.flatten) (hlen : s.tools.toolSlots.length = n)
    (hsuppress : s.suppressToolCalls = false) (hrun : UndividedRun cfg s steps)
    (hend : steps = [] → Blank s.deferredContent) :
    Ensures (eventsToDeltas cfg steps) s
      (fun deltas _ => squeeze (deltas.flatMap contentOf) =
        squeeze (s.deferredContent ++ textOf steps.flatten))
      (fun _ _ => False) := by
  induction steps generalizing s n with
  | nil =>
    rw [eventsToDeltas, ensures_pure, flatten_nil, squeeze_append, hend rfl]
    rfl
  | cons events steps ih =>
    rw [flatten_cons, numbered_append] at hnum
    obtain ⟨hundivided, hnext⟩ := hrun
    rw [eventsToDeltas, ensures_bind]
    refine ((eventsToDelta_spec hnum.1 hlen hsuppress hundivided).and (ensures_run _ s)).mono ?_
      (fun _ _ h => h.1)
    intro delta t h
    obtain ⟨⟨hkept, hparked, hsuppress', hlen'⟩, hok⟩ := h
    rw [ensures_bind]
    refine (ih hnum.2 hlen' hsuppress' (hnext delta t hok) ?_).imp ?_
    · intro hlast
      exact hparked (by rw [hlast]; rfl)
    · intro deltas u hrest
      rw [ensures_pure, flatMap_cons, squeeze_append, hrest, squeeze_append,
        ← append_assoc, ← squeeze_append, hkept, flatten_cons, textOf_append,
        ← squeeze_append, append_assoc]

theorem buildExtractedResult_spec {k : ℕ} {s : ToolState} (hk : k ≤ s.toolSlots.length) :
    Ensures (buildExtractedResult cfg k) s (fun _ _ => True) (fun _ _ => False) := by
  induction k generalizing s with
  | zero => trivial
  | succ k ih =>
    have hpos : (0 : ℤ) ≤ (s.toolSlots.length - (k + 1) : ℕ) := Int.natCast_nonneg _
    have hlt : ((s.toolSlots.length - (k + 1) : ℕ) : ℤ) < s.toolSlots.length := by omega
    rw [buildExtractedResult, ensures_bind, ensures_get, ensures_bind]
    refine (handles_getSlot s hpos hlt).imp ?_
    intro slot t ht
    cases extractCall cfg slot with
    | none => exact ih (by omega)
    | some call =>
      dsimp only
      rw [ensures_bind]
      refine (handles_ensureToolId call.1 t hpos (ht ▸ hlt)).imp ?_
      intro _ u hu
      rw [ensures_bind]
      refine (handles_getSlot u hpos (by omega)).imp ?_
      intro slot' v hv
      rw [ensures_bind]
      exact (ih (by omega)).imp (fun _ _ _ => trivial)

theorem squeeze_stripContentWhitespace (content : List Char) (toolsCalled : Bool) :
    squeeze ((stripContentWhitespace cfg content toolsCalled).getD []) = squeeze content := by
  have hnonempty : ∀ text : List Char, (nonempty text).getD [] = text := by
    intro text
    unfold nonempty
    by_cases h : text = []
    · simp [h]
    · simp [h]
  rw [stripContentWhitespace, hnonempty]
  split_ifs with _ _ hblank
  · exact squeeze_strip content
  · rw [squeeze_nil, strip_eq_nil_iff.mp hblank.2]
  · rfl
  · rfl

/-- What a parse of the whole output returns as content. -/
theorem singlePassParse_spec {s : Parser}
    (hnum : Numbered 0 events) (hsuppress : s.suppressToolCalls = false)
    (hundivided : Undivided (reset s) events true) :
    Ensures (singlePassParse cfg events) s
      (fun result _ => squeeze (result.1.getD []) = squeeze (textOf events))
      (fun _ _ => False) := by
  have hstep : Ensures (eventsToDelta cfg events true) (reset s) _ _ :=
    eventsToDelta_spec hnum rfl hsuppress hundivided
  rw [singlePassParse, ensures_bind, ensures_modify, ensures_bind]
  refine hstep.imp ?_
  intro delta t h
  obtain ⟨hkept, hparked, -, -⟩ := h
  rw [ensures_bind, ensures_get, ensures_bind, onTools, ensures_zoom]
  refine (buildExtractedResult_spec le_rfl).imp ?_
  intro calls u _
  rw [ensures_pure]
  rw [squeeze_append, hparked rfl, append_nil] at hkept
  have htext : squeeze (contentOf delta) = squeeze (textOf events) := hkept
  rw [← htext]
  cases hcontent : delta.bind DeltaMessage.content with
  | none => rw [contentOf, hcontent]; rfl
  | some content =>
    rw [contentOf, hcontent]
    exact squeeze_stripContentWhitespace content _

/-- In a run whose steps are undivided every step returns, and all visible text goes out;
the parse of the same output, undivided as a single step, returns it too. -/
theorem visible_text_kept {s : Parser} {steps : List (List SemanticEvent)}
    (hsuppress : s.suppressToolCalls = false) (hnum : Numbered 0 steps.flatten)
    (hrun : UndividedRun cfg (reset s) steps) :
    (∃ deltas t, (eventsToDeltas cfg steps).run (reset s) = .ok deltas t ∧
        squeeze (deltas.flatMap contentOf) = squeeze (textOf steps.flatten)) ∧
      (Undivided (reset s) steps.flatten true →
        ∃ content calls t, (singlePassParse cfg steps.flatten).run s = .ok (content, calls) t ∧
          squeeze (content.getD []) = squeeze (textOf steps.flatten)) := by
  constructor
  · exact (eventsToDeltas_spec (s := reset s) hnum rfl hsuppress hrun fun _ => rfl).exists_ok
  · intro hundivided
    obtain ⟨result, t, hok, hkept⟩ := (singlePassParse_spec hnum hsuppress hundivided).exists_ok
    exact ⟨result.1, result.2, t, hok, hkept⟩

def rawConfig : ParserEngineConfig where
  validateToolNames := false
  argConverter := none
  argStructuralChars := none
  streamArgDeltas := true
  dropWhitespaceOnlyContentBeforeTools := true
  stripContentWhitespaceWithTools := true
  stripToolNames := false
  tools := []
  streamableStringKeys := fun _ => none
  fixArgTypes := fun argsJson _ => argsJson
  makeToolCallId := fun name _ => name
  extractNameAndArgs := fun body => ([], body)

def newParser : Parser := ⟨⟨[], 0⟩, [], false, false⟩

def callEvents : List SemanticEvent :=
  [⟨.toolCallStart, [], 0⟩, ⟨.toolName, ['f'], 0⟩, ⟨.toolCallEnd, [], 0⟩]

theorem visible_text_kept_textAroundCall :
    (∃ deltas t, (eventsToDeltas rawConfig [callEvents, [⟨.textChunk, ['h', 'i'], 0⟩]]).run
        (reset newParser) = .ok deltas t ∧ squeeze (deltas.flatMap contentOf) = ['h', 'i']) ∧
      ∃ content calls t,
        (singlePassParse rawConfig (⟨.textChunk, ['h', 'i'], 0⟩ :: callEvents)).run newParser =
          .ok (content, calls) t ∧ squeeze (content.getD []) = ['h', 'i'] := by
  constructor
  · have hnum : Numbered 0 [callEvents, [⟨.textChunk, ['h', 'i'], 0⟩]].flatten := by
      simp [callEvents, Numbered]
    have hrun : UndividedRun rawConfig (reset newParser)
        [callEvents, [⟨.textChunk, ['h', 'i'], 0⟩]] := by
      constructor
      · intro _
        exact .inr (by decide)
      · intro delta t _
        refine ⟨?_, fun _ _ _ => trivial⟩
        intro htool
        cases htool
    exact (visible_text_kept rfl hnum hrun).1
  · have hnum : Numbered 0 [⟨.textChunk, ['h', 'i'], 0⟩ :: callEvents].flatten := by
      simp [callEvents, Numbered]
    have hwhole : Undivided (reset newParser) (⟨.textChunk, ['h', 'i'], 0⟩ :: callEvents) true :=
      fun _ => .inr (by decide)
    exact (visible_text_kept rfl hnum ⟨hwhole, fun _ _ _ => trivial⟩).2 hwhole

/-- The text after the call of a single step is lost, in the stream and in the parse. -/
theorem visible_text_lost_afterCall :
    (∃ deltas t, (eventsToDeltas rawConfig [callEvents ++ [⟨.textChunk, ['h', 'i'], 0⟩]]).run
        (reset newParser) = .ok deltas t ∧ deltas.flatMap contentOf = []) ∧
      (∃ calls t, (singlePassParse rawConfig (callEvents ++ [⟨.textChunk, ['h', 'i'], 0⟩])).run
        newParser = .ok (none, calls) t) ∧
      textOf (callEvents ++ [⟨.textChunk, ['h', 'i'], 0⟩]) = ['h', 'i'] := by
  refine ⟨⟨_, _, rfl, rfl⟩, ⟨_, _, rfl⟩, rfl⟩

end Vllm.ParserEngine
