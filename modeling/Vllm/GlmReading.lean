import Vllm.GlmGrammar

/-!
How the GLM tool parser reads its buffer. Every event that it takes from the
front is a step of the grammar for every continuation of the text, except one:
the rest after a call is dropped as far as it has arrived. So what is read from
a buffer is what the grammar says unless a call is hidden in what is to come.
-/
namespace Vllm.GlmXml

open MarkerSearch Winnow List

variable {rest buffer : List Char} {n fuel : ℕ}

/-! ### The events of the front -/

section
variable [Winnow] [Lawful] {input : List Char} {q : Parser GlmEvent}

open Lawful

/-- The start marker is read, waited for, or left to another parser. -/
theorem toolCallStartEvent_eq (input : List Char) : toolCallStartEvent input =
    if toolCallStart <+: input then .ok (.toolCallStart, input.drop toolCallStart.length)
    else if input <+: toolCallStart then .error .incomplete else .error .backtrack := by
  have hliteral := literal_growing toolCallStart input
  split_ifs at hliteral ⊢
  · exact seq_ok _ _ _ _ _ hliteral
  · exact seq_error _ _ _ _ hliteral
  · exact seq_error _ _ _ _ hliteral

theorem alt_of_start (h : toolCallStart <+: input) :
    alt toolCallStartEvent q input =
      .ok (.toolCallStart, input.drop toolCallStart.length) := by
  have hevent := toolCallStartEvent_eq input
  rw [if_pos h] at hevent
  rw [alt_of_ne _ _ _ (by simp [hevent]), hevent]

theorem alt_of_part (hshort : ¬ toolCallStart <+: input) (hpart : input <+: toolCallStart) :
    alt toolCallStartEvent q input = .error .incomplete := by
  have hevent := toolCallStartEvent_eq input
  rw [if_neg hshort, if_pos hpart] at hevent
  rw [alt_of_ne _ _ _ (by simp [hevent]), hevent]

theorem alt_of_not_start (hshort : ¬ toolCallStart <+: input)
    (hpart : ¬ input <+: toolCallStart) : alt toolCallStartEvent q input = q input := by
  apply alt_backtrack
  rw [toolCallStartEvent_eq, if_neg hshort, if_neg hpart]

theorem ignoredRestEvent_eq (input : List Char) :
    ignoredRestEvent input = .ok (.ignoredRest, []) :=
  seq_ok _ _ _ _ _ (rest_eq input)

theorem afterToolCallEvent_eq (input : List Char) : afterToolCallEvent input =
    if skipWs input = [] then .error .incomplete
    else alt toolCallStartEvent ignoredRestEvent (skipWs input) := by
  unfold afterToolCallEvent
  rw [multispace0_growing]
  unfold skipWs
  split_ifs <;> rfl

variable {separator : Separator} {scanStart scanStart' : ℕ} {body more : List Char}

theorem toolCallEvent_wait
    (h : takeUntilMarker toolCallEnd scanStart input = (.error .incomplete, scanStart')) :
    toolCallEvent separator scanStart input = (.error .incomplete, scanStart') := by
  unfold toolCallEvent
  dsimp only
  rw [seq_error _ _ input .incomplete (congrArg Prod.fst h), h]
  rfl

theorem toolCallEvent_found (separator : Separator)
    (h : takeUntilMarker toolCallEnd scanStart input = (.ok (body, more), scanStart'))
    (hend : toolCallEnd <+: more) :
    toolCallEvent separator scanStart input =
      ((parseToolCallBody separator body).map fun event =>
        (event, more.drop toolCallEnd.length), scanStart') := by
  have hliteral := literal_growing toolCallEnd more
  rw [if_pos hend] at hliteral
  unfold toolCallEvent
  dsimp only
  rw [seq_ok _ _ input body more (congrArg Prod.fst h), seq_ok _ _ more _ _ hliteral, h]
  change ((parseToolCallBody separator body).bind fun event => .ok (event, _), scanStart') = _
  cases parseToolCallBody separator body <;> rfl

theorem decides_parseParameters : Decides parseParameters 0 := by
  -- a parameter takes at least its first tag
  have hparameter : Decides parseParameter _ :=
    decides_seq (decides_literal _) fun _ => decides_seq (decides_takeUntil _ _) fun _ =>
      decides_seq (decides_literal _) fun _ => decides_seq decides_multispace0 fun _ =>
        decides_seq (decides_literal _) fun _ => decides_seq (decides_takeUntil _ _) fun _ =>
          decides_seq (decides_literal _) fun _ => decides_done _
  exact decides_repeat0 (decides_seq hparameter fun _ =>
    decides_seq decides_multispace0 fun _ => decides_done _) (by decide)

theorem decides_nameAndParameters {functionName : Parser (List Char)}
    (h : Decides functionName 0) : Decides (nameAndParameters functionName) 0 :=
  decides_seq decides_multispace0 fun _ => decides_seq h fun _ =>
    decides_seq decides_parseParameters fun _ => decides_seq decides_multispace0 fun _ =>
      decides_seq decides_eof fun _ => decides_done _

/-- A body that has arrived whole is a call or is none; it never waits for more. -/
theorem parseToolCallBody_cases (separator : Separator) (body : List Char) :
    parseToolCallBody separator body = .error .backtrack ∨
      ∃ name rawParams, parseToolCallBody separator body = .ok (.toolCall name rawParams) := by
  have hname : ∃ functionName, Decides (nameAndParameters functionName) 0 ∧
      parseToolCallBody separator body =
        (nameAndParameters functionName body).map fun r => .toolCall r.1.1 r.1.2 := by
    cases separator with
    | newline =>
      have h : Decides parseNewlineSeparatedFunctionName _ :=
        decides_seq (decides_takeUntil _ _) fun _ => decides_seq (decides_literal _) fun _ =>
          decides_done _
      exact ⟨_, decides_nameAndParameters (h.mono (Nat.zero_le _)), rfl⟩
    | flexible =>
      exact ⟨_, decides_nameAndParameters (decides_seq (decides_takeWhile _ _) fun _ =>
        decides_seq decides_multispace0 fun _ => decides_done _), rfl⟩
  obtain ⟨functionName, hdecides, heq⟩ := hname
  rw [heq]
  rcases hdecides body with hback | ⟨⟨name, rawParams⟩, rest, hok, -⟩
  · rw [hback]
    exact .inl rfl
  · rw [hok]
    exact .inr ⟨name, rawParams, rfl⟩
end

def GlmMode.stage : GlmMode → Stage
  | .text => .text
  | .toolCall _ => .call
  | .afterToolCall => .after

namespace GlmXmlToolParser

variable {cfg : Config} {p q : GlmXmlToolParser} {output output' : ToolParserOutput}
  {output₁ output₂ output₃ : ToolParserOutput} {u v : List Char} {cs ds : List ToolCallDelta}

def Hides (p : GlmXmlToolParser) (rest : List Char) : Prop :=
  Hidden p.mode.stage (p.buffer ++ rest)

/-- No end marker starts before the scan position, whatever arrives. -/
def Scanned (p : GlmXmlToolParser) : Prop :=
  ∀ k, p.mode = .toolCall k → ∀ rest i, OccursAt toolCallEnd (p.buffer ++ rest) i → k ≤ i

/-- Nothing can be read from the buffer before more arrives. -/
def Waiting (p : GlmXmlToolParser) : Prop :=
  match p.mode with
  | .text => p.buffer <+: toolCallStart ∧ ¬ toolCallStart <+: p.buffer
  | .toolCall _ => find toolCallEnd p.buffer = none
  | .afterToolCall => skipWs p.buffer <+: toolCallStart ∧ ¬ toolCallStart <+: skipWs p.buffer

/-- After a call, something that is neither a call nor the beginning of one. -/
structure Ignored (p : GlmXmlToolParser) : Prop where
  mode : p.mode = .afterToolCall
  part : ¬ skipWs p.buffer <+: toolCallStart
  short : ¬ toolCallStart <+: skipWs p.buffer

structure Adds (output output' : ToolParserOutput) (u : List Char) (cs : List ToolCallDelta) :
    Prop where
  text : output'.normalText = output.normalText ++ u
  calls : output'.calls = output.calls ++ cs

theorem adds_refl (output : ToolParserOutput) : Adds output output [] [] :=
  ⟨(append_nil _).symm, (append_nil _).symm⟩

theorem adds_pushText (output : ToolParserOutput) (text : List Char) :
    Adds output (output.pushText text) text [] := by
  unfold ToolParserOutput.pushText
  split_ifs with hempty
  · rw [hempty]
    exact adds_refl output
  · cases hlast : output.events.getLast? with
    | none => constructor <;> simp [ToolParserOutput.normalText, ToolParserOutput.calls]
    | some event =>
      cases event with
      | toolCall call => constructor <;> simp [ToolParserOutput.normalText, ToolParserOutput.calls]
      | text last =>
        -- the text is joined to the last event
        have hevents : output.events = output.events.dropLast ++ [.text last] :=
          (dropLast_append_getLast? _ hlast).symm
        constructor
        · unfold ToolParserOutput.normalText
          conv_rhs => rw [hevents]
          simp
        · unfold ToolParserOutput.calls
          conv_rhs => rw [hevents]
          simp

theorem adds_pushCall (output : ToolParserOutput) (call : ToolCallDelta) :
    Adds output (output.pushCall call) [] [call] := by
  constructor
  · simp [ToolParserOutput.pushCall, ToolParserOutput.normalText]
  · simp [ToolParserOutput.pushCall, ToolParserOutput.calls]

theorem adds_empty_iff : Adds .empty output u cs ↔ u = output.normalText ∧ cs = output.calls := by
  constructor
  · intro h
    exact ⟨h.text.symm, h.calls.symm⟩
  · intro h
    exact ⟨h.1.symm, h.2.symm⟩

/-- What two steps add is added one after the other. -/
theorem Adds.trans (h₁ : Adds output₁ output₂ u cs) (h₂ : Adds output₂ output₃ v ds) :
    Adds output₁ output₃ (u ++ v) (cs ++ ds) := by
  constructor
  · rw [h₂.text, h₁.text, append_assoc]
  · rw [h₂.calls, h₁.calls, append_assoc]

theorem scanned_of_ne_toolCall (h : p.mode.stage ≠ .call) : Scanned p := by
  intro k hk
  rw [hk] at h
  exact absurd rfl h

theorem scanned_zero : Scanned ⟨buffer, .toolCall 0, n⟩ := by
  intro k hk rest i _
  cases hk
  exact Nat.zero_le i

/-- A search that resumes where the last one stopped finds the leftmost marker of the whole buffer.
-/
theorem takeUntilMarker_eq (buffer : List Char) (k : ℕ)
    (hscanned : ∀ i, OccursAt toolCallEnd buffer i → k ≤ i) :
    takeUntilMarker toolCallEnd k buffer = match find toolCallEnd buffer with
      | some i => (.ok (buffer.take i, buffer.drop i), 0)
      | none => (.error .incomplete, if buffer = [] then k else
          buffer.length - partialPrefixLen toolCallEnd buffer) := by
  unfold takeUntilMarker
  split_ifs with hempty
  · rw [hempty]
    rfl
  · have hocc : ∀ i, OccursAt toolCallEnd buffer i → min k buffer.length ≤ i :=
      fun i hi => (Nat.min_le_left _ _).trans (hscanned i hi)
    dsimp only
    rw [find_drop toolCallEnd_ne_nil hocc]
    cases hfind : find toolCallEnd buffer with
    | none => rfl
    | some i =>
      have hle := hocc i ((find_eq_some_iff toolCallEnd_ne_nil).mp hfind).1
      simp only [Option.map_some, Nat.add_sub_cancel' hle]

theorem find_start_front (text : List Char) :
    find toolCallStart (toolCallStart ++ text) = some 0 := by
  rw [find_eq_some_iff toolCallStart_ne_nil]
  exact ⟨prefix_append _ _, fun j hj => absurd hj (Nat.not_lt_zero j)⟩

theorem find_start_of_waiting (hpart : buffer <+: toolCallStart)
    (hshort : ¬ toolCallStart <+: buffer) : find toolCallStart buffer = none := by
  rw [find_eq_none_iff toolCallStart_ne_nil]
  intro i hocc
  have hle := hocc.add_le toolCallStart_ne_nil
  have hlen := hpart.length_le
  have heq := hpart.eq_of_length (by omega)
  exact hshort (heq ▸ prefix_rfl)

theorem not_start_nil : ¬ toolCallStart <+: skipWs [] := by decide

theorem Ignored.length_pos (h : Ignored p) : 0 < p.buffer.length := by
  apply length_pos_iff.mpr
  intro hempty
  apply h.part
  rw [hempty]
  exact nil_prefix

theorem Ignored.hides (h : Ignored p)
    (hhides : Hides ⟨[], .afterToolCall, n⟩ rest) : Hides p rest := by
  unfold Hides
  rw [h.mode]
  exact hidden_of_dropped h.short h.part hhides

/-! ### Moves along the grammar -/

variable [Winnow]

/-- From here on the parser has the rest of its buffer and `rest` to read. -/
def Reads (cfg : Config) (p : GlmXmlToolParser) (rest u : List Char) (cs : List ToolCallDelta) :
    Prop :=
  Parses cfg p.mode.stage p.emittedToolCount (p.buffer ++ rest) u cs

/-- An event moves the parser along the text, whatever follows. -/
structure Moves (cfg : Config) (p q : GlmXmlToolParser) (u : List Char)
    (cs : List ToolCallDelta) : Prop where
  reads : ∀ rest v ds, Reads cfg p rest v ds ↔
    ∃ v' ds', v = u ++ v' ∧ ds = cs ++ ds' ∧ Reads cfg q rest v' ds'
  hides : ∀ rest, Hides p rest ↔ Hides q rest
  count : q.emittedToolCount = p.emittedToolCount + cs.length
  scanned : Scanned q
  shorter : q.buffer.length < p.buffer.length

inductive Step (cfg : Config) (p : GlmXmlToolParser) (output : ToolParserOutput) :
    Except ToolParserError (Bool × GlmXmlToolParser × ToolParserOutput) → Prop
  | wait {mode : GlmMode} (hstage : mode.stage = p.mode.stage)
      (hscanned : Scanned { p with mode := mode }) (hwait : Waiting { p with mode := mode }) :
      Step cfg p output (.ok (false, { p with mode := mode }, output))
  | move {q : GlmXmlToolParser} {output' : ToolParserOutput} {u : List Char}
      {cs : List ToolCallDelta} (hmoves : Moves cfg p q u cs)
      (hadds : Adds output output' u cs) : Step cfg p output (.ok (true, q, output'))
  | ignore (hignored : Ignored p) :
      Step cfg p output (.ok (true, ⟨[], .afterToolCall, p.emittedToolCount⟩, output))
  | fail {e : ToolParserError} (hfail : ∀ rest v ds, ¬ Reads cfg p rest v ds) :
      Step cfg p output (.error e)

theorem readEvent_of_ok {event : GlmEvent} {mode : GlmMode}
    (h : parseNextGlmEvent cfg.separator p.mode p.buffer = (.ok (event, rest), mode))
    (hlen : rest.length < p.buffer.length) :
    readEvent cfg p output = (applyEvent cfg { p with mode := mode } output event).map
      fun (p, output) => (true, { p with buffer := rest }, output) := by
  unfold readEvent
  rw [h]
  dsimp only
  rw [if_neg hlen.ne]
  cases applyEvent cfg { p with mode := mode } output event <;> rfl

theorem moves_start : Moves cfg ⟨toolCallStart ++ rest, .text, n⟩ ⟨rest, .toolCall 0, n⟩ [] [] := by
  have hdrop : ∀ r, (toolCallStart ++ (rest ++ r)).drop (0 + toolCallStart.length) = rest ++ r := by
    intro r
    rw [Nat.zero_add, drop_left]
  refine ⟨?_, ?_, rfl, scanned_zero, ?_⟩
  · intro r v ds
    simp only [Reads, GlmMode.stage, append_assoc, parses_text_of_find (find_start_front _),
      hdrop, take_zero, nil_append]
    constructor
    · intro h
      obtain ⟨v, rfl, h⟩ := h
      exact ⟨v, ds, rfl, rfl, h⟩
    · intro h
      obtain ⟨v, ds, rfl, rfl, h⟩ := h
      exact ⟨v, rfl, h⟩
  · intro r
    simp only [Hides, GlmMode.stage, append_assoc, hidden_text_of_find (find_start_front _),
      hdrop]
  · rw [length_append]
    exact Nat.lt_add_of_pos_left (by decide)

/-- Text in front of the first place where a marker may start can go out. -/
theorem moves_text {len : ℕ} (hpos : 0 < len) (hlen : len ≤ buffer.length)
    (hocc : ∀ rest i, OccursAt toolCallStart (buffer ++ rest) i → len ≤ i) :
    Moves cfg ⟨buffer, .text, n⟩ ⟨buffer.drop len, .text, n⟩ (buffer.take len) [] where
  reads := by
    intro r v ds
    have htake : (buffer ++ r).take len = buffer.take len := take_append_of_le_length hlen
    have hdrop : (buffer ++ r).drop len = buffer.drop len ++ r :=
      drop_append_of_le_length hlen
    simp only [Reads, GlmMode.stage, parses_text_drop (hocc r), htake, hdrop, nil_append]
    constructor
    · intro h
      obtain ⟨v, rfl, h⟩ := h
      exact ⟨v, ds, rfl, rfl, h⟩
    · intro h
      obtain ⟨v, ds, rfl, rfl, h⟩ := h
      exact ⟨v, rfl, h⟩
  hides := by
    intro r
    have hdrop : (buffer ++ r).drop len = buffer.drop len ++ r :=
      drop_append_of_le_length hlen
    simp only [Hides, GlmMode.stage, hidden_text_drop (hocc r), hdrop]
  count := rfl
  scanned := scanned_of_ne_toolCall (by simp [GlmMode.stage])
  shorter := by
    rw [length_drop]
    dsimp only
    omega

/-- A whole call moves the parser behind its end marker. -/
theorem moves_call {name arguments : List Char} {rawParams : RawParams} {k i : ℕ}
    (hfind : find toolCallEnd buffer = some i)
    (hbody : parseToolCallBody cfg.separator (buffer.take i) = .ok (.toolCall name rawParams))
    (hconvert : cfg.convert name rawParams = .ok arguments) :
    Moves cfg ⟨buffer, .toolCall k, n⟩
      ⟨buffer.drop (i + toolCallEnd.length), .afterToolCall, n + 1⟩ []
      [⟨n, some name, arguments⟩] := by
  have hle := ((find_eq_some_iff toolCallEnd_ne_nil).mp hfind).1.add_le toolCallEnd_ne_nil
  have hdrop : ∀ r, (buffer ++ r).drop (i + toolCallEnd.length) =
      buffer.drop (i + toolCallEnd.length) ++ r :=
    fun r => drop_append_of_le_length hle
  refine ⟨?_, ?_, rfl, scanned_of_ne_toolCall (by simp [GlmMode.stage]), ?_⟩
  · intro r v ds
    have hbody' : parseToolCallBody cfg.separator ((buffer ++ r).take i) =
        .ok (.toolCall name rawParams) := by
      rw [take_append_of_le_length (by omega)]
      exact hbody
    simp only [Reads, GlmMode.stage, hdrop, nil_append,
      parses_call_of_find (find_append toolCallEnd_ne_nil hfind r) hbody' hconvert]
    constructor
    · intro h
      obtain ⟨ds, rfl, h⟩ := h
      exact ⟨v, ds, rfl, rfl, h⟩
    · intro h
      obtain ⟨v, ds, rfl, rfl, h⟩ := h
      exact ⟨ds, rfl, h⟩
  · intro r
    simp only [Hides, GlmMode.stage, hdrop,
      hidden_call_of_find (find_append toolCallEnd_ne_nil hfind r)]
  · rw [length_drop]
    dsimp only
    have hpos : 0 < toolCallEnd.length := by decide
    omega

theorem moves_next (hws : skipWs buffer = toolCallStart ++ rest) :
    Moves cfg ⟨buffer, .afterToolCall, n⟩ ⟨rest, .toolCall 0, n⟩ [] [] where
  reads := by
    intro r v ds
    simp only [Reads, GlmMode.stage, parses_after_of_start (skipWs_append_of_start hws r),
      nil_append]
    constructor
    · intro h
      exact ⟨v, ds, rfl, rfl, h⟩
    · intro h
      obtain ⟨v, ds, rfl, rfl, h⟩ := h
      exact h
  hides := by
    intro r
    simp only [Hides, GlmMode.stage, hidden_after_of_start (skipWs_append_of_start hws r)]
  count := rfl
  scanned := scanned_zero
  shorter := by
    obtain ⟨before, rfl, hbefore⟩ := exists_before_start hws
    rw [length_append]
    have hpos : 0 < before.length := by
      apply length_pos_iff.mpr
      rintro rfl
      cases hbefore
    exact Nat.lt_add_of_pos_left hpos

/-- In ignored text there is nothing to read. -/
theorem Ignored.reads_iff (h : Ignored p) : Reads cfg p rest u cs ↔ u = [] ∧ cs = [] := by
  unfold Reads
  rw [h.mode]
  exact parses_after_of_not_start (not_start_append h.short h.part rest).1

/-- Nothing is read after what was dropped unless a call is hidden behind it. -/
theorem Ignored.reads_dropped (h : Ignored p)
    (hsafe : rest = [] ∨ ¬ Hides p rest) : Reads cfg ⟨[], .afterToolCall, n⟩ rest [] [] := by
  cases hsafe with
  | inl hrest =>
    rw [hrest]
    exact .rest not_start_nil
  | inr hsafe =>
    unfold Hides at hsafe
    rw [h.mode] at hsafe
    exact parses_of_dropped h.short h.part hsafe

/-- At the end of the stream a waiting parser finishes exactly if the grammar accepts its
buffer. -/
theorem Waiting.reads_iff (hwait : Waiting p) :
    Reads cfg p [] u cs ↔ ∃ last, p.finish = .ok last ∧ Adds .empty last u cs := by
  obtain ⟨buffer, mode, n⟩ := p
  unfold Reads
  simp only [adds_empty_iff, append_nil]
  cases mode with
  | text =>
    have hfinish : finish ⟨buffer, .text, n⟩ = .ok (ToolParserOutput.empty.pushText buffer) := by
      unfold finish
      split_ifs with hempty
      · dsimp only at hempty
        rw [hempty]
        rfl
      · rfl
    have hadds := adds_empty_iff.mp (adds_pushText .empty buffer)
    rw [GlmMode.stage, parses_text_of_not_find (find_start_of_waiting hwait.1 hwait.2), hfinish]
    constructor
    · intro h
      obtain ⟨rfl, rfl⟩ := h
      exact ⟨_, rfl, hadds⟩
    · intro h
      obtain ⟨_, hlast, rfl, rfl⟩ := h
      cases hlast
      exact ⟨hadds.1.symm, hadds.2.symm⟩
  | toolCall k =>
    rw [GlmMode.stage, parses_call_of_not_find hwait]
    constructor
    · intro h
      obtain ⟨hempty, rfl, rfl⟩ := h
      exact ⟨.empty, if_pos hempty, rfl, rfl⟩
    · intro h
      obtain ⟨last, hlast, rfl, rfl⟩ := h
      unfold finish at hlast
      split_ifs at hlast with hempty
      cases hlast
      exact ⟨hempty, rfl, rfl⟩
  | afterToolCall =>
    have hfinish : finish ⟨buffer, .afterToolCall, n⟩ = .ok .empty := by
      unfold finish
      split_ifs <;> rfl
    rw [GlmMode.stage, parses_after_of_not_start hwait.2, hfinish]
    constructor
    · intro h
      exact ⟨_, rfl, h⟩
    · intro h
      obtain ⟨_, hlast, h⟩ := h
      cases hlast
      exact h

theorem not_parses_call_junk : ¬ Parses cfg .call n ['z'] u cs := by
  intro h
  have hempty := ((parses_call_of_not_find (by decide)).mp h).1
  cases hempty

/-- A waiting parser still depends on what follows. -/
theorem Waiting.not_decided (hwait : Waiting p) : ¬ ∀ rest, Reads cfg p rest u cs := by
  intro hall
  obtain ⟨buffer, mode, n⟩ := p
  cases mode with
  | text =>
    -- the marker is completed
    obtain ⟨more, hmore⟩ := hwait.1
    have hreads : Parses cfg .text n (buffer ++ (more ++ ['z'])) u cs := hall (more ++ ['z'])
    rw [← append_assoc, hmore] at hreads
    obtain ⟨v, _, hcall⟩ := (parses_text_of_find (find_start_front _)).mp hreads
    exact not_parses_call_junk hcall
  | toolCall k =>
    have hend : Parses cfg .call n (buffer ++ []) u cs := hall []
    rw [append_nil] at hend
    obtain ⟨hempty, _⟩ := (parses_call_of_not_find hwait).mp hend
    dsimp only at hempty
    have hreads : Parses cfg .call n (buffer ++ ['z']) u cs := hall ['z']
    rw [hempty] at hreads
    exact not_parses_call_junk hreads
  | afterToolCall =>
    obtain ⟨more, hmore⟩ := hwait.1
    have hreads : Parses cfg .after n (buffer ++ (more ++ ['z'])) u cs := hall (more ++ ['z'])
    exact not_parses_call_junk
      ((parses_after_of_start (skipWs_append_of_part hmore ['z'])).mp hreads)

theorem readEvents_wait (h : readEvent cfg p output = .ok (false, q, output')) :
    readEvents cfg (fuel + 1) p output = .ok (q, output') := by
  rw [readEvents, h]
  rfl

theorem readEvents_move (h : readEvent cfg p output = .ok (true, q, output')) :
    readEvents cfg (fuel + 1) p output = readEvents cfg fuel q output' := by
  rw [readEvents, h]
  rfl

/-- A parser that has read from its buffer what can be read, with the rest still to come. -/
structure Rests (cfg : Config) (output : ToolParserOutput) (rest u : List Char)
    (cs : List ToolCallDelta) (q : GlmXmlToolParser) (output' : ToolParserOutput) : Prop where
  split : ∃ u₁ u₂ cs₁ cs₂, u = u₁ ++ u₂ ∧ cs = cs₁ ++ cs₂ ∧ Adds output output' u₁ cs₁ ∧
    Reads cfg q rest u₂ cs₂
  scanned : Scanned q
  waiting : Waiting q
  safe : rest = [] ∨ ¬ Hides q rest

theorem Rests.cons (h : Rests cfg output₂ rest v ds q output₃) (hadds : Adds output₁ output₂ u cs) :
    Rests cfg output₁ rest (u ++ v) (cs ++ ds) q output₃ := by
  refine ⟨?_, h.scanned, h.waiting, h.safe⟩
  obtain ⟨v₁, v₂, ds₁, ds₂, rfl, rfl, hadds', hreads⟩ := h.split
  exact ⟨u ++ v₁, v₂, cs ++ ds₁, ds₂, (append_assoc ..).symm, (append_assoc ..).symm,
    hadds.trans hadds', hreads⟩

/-! ### Reading one event -/

variable [Lawful]

/-- The text event takes at least one character and never part of a marker. -/
theorem parseTextEvent_text (hstart : ¬ toolCallStart <+: buffer)
    (hpart : ¬ buffer <+: toolCallStart) :
    ∃ len, parseTextEvent buffer = .ok (.text len, buffer.drop len) ∧ 0 < len ∧
      len ≤ buffer.length ∧
      ∀ rest i, OccursAt toolCallStart (buffer ++ rest) i → len ≤ i := by
  have hne : buffer ≠ [] := by
    intro h
    rw [h] at hpart
    exact hpart nil_prefix
  simp only [parseTextEvent, alt_of_not_start hstart hpart, safeTextEvent, safeTextLen,
    if_neg hne]
  cases hfind : find toolCallStart buffer with
  | some i =>
    obtain ⟨hocc, hmin⟩ := (find_eq_some_iff toolCallStart_ne_nil).mp hfind
    refine ⟨i, rfl, ?_, by have := hocc.add_le toolCallStart_ne_nil; omega, ?_⟩
    · apply Nat.pos_of_ne_zero
      intro hi
      rw [hi] at hocc
      exact hstart hocc
    · intro rest j hj
      have hfind' := find_append toolCallStart_ne_nil hfind rest
      by_contra hlt
      exact ((find_eq_some_iff toolCallStart_ne_nil).mp hfind').2 j (by omega) hj
  | none =>
    have hkeep := (drop_partialPrefixLen toolCallStart_ne_nil buffer).1
    have hpos : buffer.length - partialPrefixLen toolCallStart buffer ≠ 0 := by
      intro h
      rw [h] at hkeep
      exact hpart hkeep
    simp only [if_neg hpos]
    exact ⟨_, rfl, Nat.pos_of_ne_zero hpos, Nat.sub_le _ _,
      fun rest i hi => emitted_le toolCallStart_ne_nil hfind hi⟩

theorem step_text :
    Step cfg ⟨buffer, .text, n⟩ output (readEvent cfg ⟨buffer, .text, n⟩ output) := by
  by_cases hstart : toolCallStart <+: buffer
  · obtain ⟨rest, rfl⟩ := hstart
    have hevent : parseNextGlmEvent cfg.separator .text (toolCallStart ++ rest) =
        (.ok (.toolCallStart, rest), .text) := by
      rw [parseNextGlmEvent, parseTextEvent, alt_of_start (prefix_append _ _), drop_left]
    have hmoves : Moves cfg ⟨toolCallStart ++ rest, .text, n⟩ ⟨rest, .toolCall 0, n⟩ [] [] :=
      moves_start
    rw [readEvent_of_ok hevent hmoves.shorter]
    exact .move hmoves (adds_refl output)
  · by_cases hpart : buffer <+: toolCallStart
    · have hread : readEvent cfg ⟨buffer, .text, n⟩ output =
          .ok (false, ⟨buffer, .text, n⟩, output) := by
        simp only [readEvent, parseNextGlmEvent, parseTextEvent, alt_of_part hstart hpart]
      rw [hread]
      exact .wait rfl (scanned_of_ne_toolCall (by simp [GlmMode.stage])) ⟨hpart, hstart⟩
    · obtain ⟨len, htext, hpos, hlen, hocc⟩ := parseTextEvent_text hstart hpart
      have hevent : parseNextGlmEvent cfg.separator .text buffer =
          (.ok (.text len, buffer.drop len), .text) := by
        rw [parseNextGlmEvent, htext]
      have hmoves : Moves cfg ⟨buffer, .text, n⟩ ⟨buffer.drop len, .text, n⟩ (buffer.take len) [] :=
        moves_text hpos hlen hocc
      rw [readEvent_of_ok hevent hmoves.shorter]
      exact .move hmoves (adds_pushText output _)

theorem step_after : Step cfg ⟨buffer, .afterToolCall, n⟩ output
      (readEvent cfg ⟨buffer, .afterToolCall, n⟩ output) := by
  by_cases hstart : toolCallStart <+: skipWs buffer
  · obtain ⟨rest, hrest⟩ := hstart
    have hevent : parseNextGlmEvent cfg.separator .afterToolCall buffer =
        (.ok (.toolCallStart, rest), .afterToolCall) := by
      have hne : skipWs buffer ≠ [] := by
        rw [← hrest]
        exact append_ne_nil_of_left_ne_nil toolCallStart_ne_nil _
      rw [parseNextGlmEvent, afterToolCallEvent_eq, if_neg hne, alt_of_start ⟨rest, hrest⟩, ← hrest,
        drop_left]
    have hmoves : Moves cfg ⟨buffer, .afterToolCall, n⟩ ⟨rest, .toolCall 0, n⟩ [] [] :=
      moves_next hrest.symm
    rw [readEvent_of_ok hevent hmoves.shorter]
    exact .move hmoves (adds_refl output)
  · by_cases hpart : skipWs buffer <+: toolCallStart
    · have hevent : afterToolCallEvent buffer = .error .incomplete := by
        rw [afterToolCallEvent_eq, alt_of_part hstart hpart, ite_self]
      have hread : readEvent cfg ⟨buffer, .afterToolCall, n⟩ output =
          .ok (false, ⟨buffer, .afterToolCall, n⟩, output) := by
        simp only [readEvent, parseNextGlmEvent, hevent]
      rw [hread]
      exact .wait rfl (scanned_of_ne_toolCall (by simp [GlmMode.stage])) ⟨hpart, hstart⟩
    · have hne : skipWs buffer ≠ [] := by
        intro h
        rw [h] at hpart
        exact hpart nil_prefix
      have hevent : parseNextGlmEvent cfg.separator .afterToolCall buffer =
          (.ok (.ignoredRest, []), .afterToolCall) := by
        rw [parseNextGlmEvent, afterToolCallEvent_eq, if_neg hne,
          alt_of_not_start hstart hpart, ignoredRestEvent_eq]
      have hlen : ([] : List Char).length < buffer.length := by
        apply length_pos_iff.mpr
        rintro rfl
        exact hne rfl
      rw [readEvent_of_ok hevent hlen]
      exact .ignore ⟨rfl, hpart, hstart⟩

/-- Inside a call the parser waits for the end marker and then reads the body in one go. -/
theorem step_call {k : ℕ} (hscanned : Scanned ⟨buffer, .toolCall k, n⟩) :
    Step cfg ⟨buffer, .toolCall k, n⟩ output (readEvent cfg ⟨buffer, .toolCall k, n⟩ output) := by
  have htake := takeUntilMarker_eq buffer k fun i hi =>
    hscanned k rfl [] i (by rwa [append_nil])
  cases hfind : find toolCallEnd buffer with
  | none =>
    rw [hfind] at htake
    have hread : readEvent cfg ⟨buffer, .toolCall k, n⟩ output =
        .ok (false, ⟨buffer, .toolCall (if buffer = [] then k else
          buffer.length - partialPrefixLen toolCallEnd buffer), n⟩, output) := by
      simp only [readEvent, parseNextGlmEvent, toolCallEvent_wait htake]
    rw [hread]
    refine .wait rfl ?_ hfind
    intro k' hk' rest i hi
    cases hk'
    split_ifs with hempty
    · exact hscanned k rfl rest i hi
    · exact emitted_le toolCallEnd_ne_nil hfind hi
  | some i =>
    rw [hfind] at htake
    obtain ⟨hocc, hmin⟩ := (find_eq_some_iff toolCallEnd_ne_nil).mp hfind
    have hle := hocc.add_le toolCallEnd_ne_nil
    have hfail : (∀ name rawParams arguments,
        parseToolCallBody cfg.separator (buffer.take i) = .ok (.toolCall name rawParams) →
          cfg.convert name rawParams ≠ .ok arguments) →
        ∀ rest v ds, ¬ Reads cfg ⟨buffer, .toolCall k, n⟩ rest v ds := by
      intro hbad rest v ds h
      obtain ⟨name, rawParams, arguments, hbody, hconvert⟩ :=
        h.body_of_find (find_append toolCallEnd_ne_nil hfind rest)
      dsimp only at hbody
      rw [take_append_of_le_length (by omega)] at hbody
      exact hbad name rawParams arguments hbody hconvert
    have hcall := toolCallEvent_found cfg.separator htake hocc
    rw [drop_drop] at hcall
    rcases parseToolCallBody_cases cfg.separator (buffer.take i)
      with hbody | ⟨name, rawParams, hbody⟩
    · have hread : readEvent cfg ⟨buffer, .toolCall k, n⟩ output = .error .parsingFailed := by
        simp only [readEvent, parseNextGlmEvent, hcall, hbody, Except.map]
      rw [hread]
      apply Step.fail
      apply hfail
      intro name rawParams arguments h
      cases hbody.symm.trans h
    · have hevent : parseNextGlmEvent cfg.separator (.toolCall k) buffer =
          (.ok (.toolCall name rawParams, buffer.drop (i + toolCallEnd.length)), .toolCall 0) := by
        simp only [parseNextGlmEvent, hcall, hbody, Except.map]
      cases hconvert : cfg.convert name rawParams with
      | ok arguments =>
        have hmoves : Moves cfg ⟨buffer, .toolCall k, n⟩ _ [] [⟨n, some name, arguments⟩] :=
          moves_call hfind hbody hconvert
        rw [readEvent_of_ok hevent hmoves.shorter]
        simp only [applyEvent, hconvert]
        exact .move hmoves (adds_pushCall output _)
      | error e =>
        have hlen : (buffer.drop (i + toolCallEnd.length)).length < buffer.length := by
          rw [length_drop]
          have hpos : 0 < toolCallEnd.length := by decide
          omega
        rw [readEvent_of_ok hevent hlen]
        simp only [applyEvent, hconvert]
        apply Step.fail
        apply hfail
        intro name' rawParams' arguments h h'
        cases hbody.symm.trans h
        cases hconvert.symm.trans h'

/-- In every mode one event is one step. -/
theorem step (hscanned : Scanned p) : Step cfg p output (readEvent cfg p output) := by
  obtain ⟨buffer, mode, n⟩ := p
  cases mode with
  | text => exact step_text
  | toolCall k => exact step_call hscanned
  | afterToolCall => exact step_after

/-! ### All events of a buffer -/

/-- Reading follows the grammar unless a call is hidden in what is still to come. -/
theorem readEvents_complete (output : ToolParserOutput)
    (hfuel : p.buffer.length < fuel)
    (hscanned : Scanned p) (hreads : Reads cfg p rest u cs)
    (hsafe : rest = [] ∨ ¬ Hides p rest) :
    ∃ q output', readEvents cfg fuel p output = .ok (q, output') ∧
      Rests cfg output rest u cs q output' := by
  induction fuel generalizing p output u cs with
  | zero => exact absurd hfuel (Nat.not_lt_zero _)
  | succ fuel ih =>
    generalize hr : readEvent cfg p output = r
    have hstep : Step cfg p output r := hr ▸ step hscanned
    cases hstep with
    | @wait mode hstage hscanned' hwait =>
      refine ⟨_, _, readEvents_wait hr, ⟨[], u, [], cs, rfl, rfl, adds_refl output, ?_⟩,
        hscanned', hwait, ?_⟩
      · unfold Reads at hreads ⊢
        rwa [hstage]
      · unfold Hides at hsafe ⊢
        rwa [hstage]
    | @move q output₁ u₁ cs₁ hmoves hadds =>
      obtain ⟨u₂, cs₂, rfl, rfl, hnext⟩ := (hmoves.reads rest u cs).mp hreads
      have hshorter := hmoves.shorter
      obtain ⟨q', output', hrun, hrests⟩ := ih output₁ (by omega) hmoves.scanned hnext
        (hsafe.imp_right fun h h' => h ((hmoves.hides rest).mpr h'))
      exact ⟨q', output', (readEvents_move hr).trans hrun, hrests.cons hadds⟩
    | ignore hignored =>
      obtain ⟨rfl, rfl⟩ := hignored.reads_iff.mp hreads
      have hlen := hignored.length_pos
      obtain ⟨q', output', hrun, hrests⟩ := ih (p := ⟨[], .afterToolCall, p.emittedToolCount⟩)
        output (by rw [length_nil]; omega) (scanned_of_ne_toolCall (by simp [GlmMode.stage]))
        (hignored.reads_dropped hsafe) (hsafe.imp_right fun h h' => h (hignored.hides h'))
      exact ⟨q', output', (readEvents_move hr).trans hrun, hrests⟩
    | fail hfail => exact absurd hreads (hfail rest u cs)

/-- What a parser reads from its buffer at the end of the stream is in the grammar. -/
theorem readEvents_sound (hfuel : p.buffer.length < fuel) (hscanned : Scanned p)
    (hrun : readEvents cfg fuel p output = .ok (q, output')) :
    Waiting q ∧ ∀ u cs, Reads cfg q [] u cs →
      ∃ u₁ cs₁, Adds output output' u₁ cs₁ ∧ Reads cfg p [] (u₁ ++ u) (cs₁ ++ cs) := by
  induction fuel generalizing p output with
  | zero => exact absurd hfuel (Nat.not_lt_zero _)
  | succ fuel ih =>
    generalize hr : readEvent cfg p output = r
    have hstep : Step cfg p output r := hr ▸ step hscanned
    cases hstep with
    | @wait mode hstage hscanned' hwait =>
      cases (readEvents_wait hr).symm.trans hrun
      refine ⟨hwait, fun u cs hreads => ⟨[], [], adds_refl _, ?_⟩⟩
      unfold Reads at hreads ⊢
      rwa [← hstage]
    | @move q' output₁ u₁ cs₁ hmoves hadds =>
      have hshorter := hmoves.shorter
      obtain ⟨hwait, hback⟩ := ih (by omega) hmoves.scanned ((readEvents_move hr).symm.trans hrun)
      refine ⟨hwait, fun u cs hreads => ?_⟩
      obtain ⟨u₂, cs₂, hadds', hreads'⟩ := hback u cs hreads
      refine ⟨u₁ ++ u₂, cs₁ ++ cs₂, hadds.trans hadds', (hmoves.reads _ _ _).mpr ?_⟩
      exact ⟨_, _, append_assoc .., append_assoc .., hreads'⟩
    | ignore hignored =>
      have hlen := hignored.length_pos
      obtain ⟨hwait, hback⟩ := ih (p := ⟨[], .afterToolCall, p.emittedToolCount⟩)
        (by rw [length_nil]; omega) (scanned_of_ne_toolCall (by simp [GlmMode.stage]))
        ((readEvents_move hr).symm.trans hrun)
      refine ⟨hwait, fun u cs hreads => ?_⟩
      obtain ⟨u₂, cs₂, hadds', hreads'⟩ := hback u cs hreads
      exact ⟨u₂, cs₂, hadds', hignored.reads_iff.mpr
        ((parses_after_of_not_start not_start_nil).mp hreads')⟩
    | fail =>
      rw [readEvents, hr] at hrun
      cases hrun

/-- A result that no continuation changes ends in the rest after the calls. -/
theorem readEvents_decided (output : ToolParserOutput) (hfuel : p.buffer.length < fuel)
    (hscanned : Scanned p) (hall : ∀ rest, Reads cfg p rest u cs) :
    ∃ output', readEvents cfg fuel p output =
        .ok (⟨[], .afterToolCall, p.emittedToolCount + cs.length⟩, output') ∧
      Adds output output' u cs := by
  induction fuel generalizing p output u cs with
  | zero => exact absurd hfuel (Nat.not_lt_zero _)
  | succ fuel ih =>
    generalize hr : readEvent cfg p output = r
    have hstep : Step cfg p output r := hr ▸ step hscanned
    cases hstep with
    | @wait mode hstage hscanned' hwait =>
      have hall' : ∀ rest, Reads cfg { p with mode := mode } rest u cs := by
        intro rest
        have hreads := hall rest
        unfold Reads at hreads ⊢
        rwa [hstage]
      exact absurd hall' hwait.not_decided
    | @move q output₁ u₁ cs₁ hmoves hadds =>
      obtain ⟨u₂, cs₂, rfl, rfl, _⟩ := (hmoves.reads [] u cs).mp (hall [])
      have hnext : ∀ rest, Reads cfg q rest u₂ cs₂ := by
        intro rest
        obtain ⟨v, ds, hv, hds, hreads⟩ := (hmoves.reads rest _ _).mp (hall rest)
        rwa [append_cancel_left hv, append_cancel_left hds]
      have hshorter := hmoves.shorter
      obtain ⟨output', hrun, hadds'⟩ := ih output₁ (by omega) hmoves.scanned hnext
      refine ⟨output', ?_, hadds.trans hadds'⟩
      rw [readEvents_move hr, hrun, hmoves.count, length_append, Nat.add_assoc]
    | ignore hignored =>
      obtain ⟨rfl, rfl⟩ := hignored.reads_iff.mp (hall [])
      have hlen := hignored.length_pos
      obtain ⟨fuel, rfl⟩ : ∃ k, fuel = k + 1 := ⟨fuel - 1, by omega⟩
      refine ⟨output, ?_, adds_refl output⟩
      have hempty : readEvent cfg ⟨[], .afterToolCall, p.emittedToolCount⟩ output =
          .ok (false, ⟨[], .afterToolCall, p.emittedToolCount⟩, output) := by
        simp only [readEvent, parseNextGlmEvent, afterToolCallEvent_eq, skipWs, dropWhile_nil,
          if_true]
      rw [readEvents_move hr]
      exact readEvents_wait hempty
    | fail hfail => exact absurd (hall []) (hfail [] u cs)

end GlmXmlToolParser

end Vllm.GlmXml
