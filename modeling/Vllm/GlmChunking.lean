import Vllm.GlmReading

/-!
When the GLM tool parser depends on chunking. Chunks give what the whole text
gives unless a call is hidden in the rest after the calls: a chunk that begins
with the hidden `<tool_call>` makes a call of it.
-/
namespace Vllm.GlmXml

open GlmXmlToolParser Winnow List

namespace GlmXmlToolParser

variable {cfg : Config} {p q : GlmXmlToolParser} {output output' : ToolParserOutput}
  {u : List Char} {cs : List ToolCallDelta}

/-! ### Chunks -/

theorem adds_append (output other : ToolParserOutput) :
    Adds output (output.append other) other.normalText other.calls := by
  obtain ⟨events⟩ := other
  induction events generalizing output with
  | nil => exact adds_refl output
  | cons event events ih =>
    cases event with
    | text text => exact (adds_pushText output text).trans (ih _)
    | toolCall call => exact (adds_pushCall output call).trans (ih _)

theorem Scanned.append (h : Scanned p) (chunk : List Char) :
    Scanned { p with buffer := p.buffer ++ chunk } := by
  intro k hk rest i hi
  apply h k hk (chunk ++ rest) i
  rwa [← append_assoc]

/-- Where text is cut into chunks does not decide whether a call is hidden. -/
theorem hides_append {chunk rest : List Char} :
    Hides { p with buffer := p.buffer ++ chunk } rest ↔ Hides p (chunk ++ rest) := by
  unfold Hides
  rw [append_assoc]

theorem parseInto_fuel (p : GlmXmlToolParser) (chunk : List Char) :
    (p.buffer ++ chunk).length < p.buffer.length + chunk.length + 1 := by
  rw [length_append]
  exact Nat.lt_succ_self _

variable [Winnow]

/-- The chunks one by one and then `finish`, before the output is coalesced. -/
def drain (cfg : Config) (p : GlmXmlToolParser) (output : ToolParserOutput) :
    List (List Char) → Except ToolParserError ToolParserOutput
  | [] => p.finish.map output.append
  | chunk :: chunks => do
    let (p, output) ← parseInto cfg p chunk output
    drain cfg p output chunks

theorem parseChunks_eq (cfg : Config) (chunks : List (List Char)) :
    parseChunks cfg chunks = (drain cfg new .empty chunks).map ToolParserOutput.coalesce := by
  have hrun : ∀ p output, (do
      let (p, output) ← chunks.foldlM (fun (p, output) chunk => parseInto cfg p chunk output)
        (p, output)
      let last ← p.finish
      return (output.append last).coalesce) =
      (drain cfg p output chunks).map ToolParserOutput.coalesce := by
    induction chunks with
    | nil =>
      intro p output
      simp only [foldlM_nil, pure_bind, drain]
      cases p.finish <;> rfl
    | cons chunk chunks ih =>
      intro p output
      simp only [foldlM_cons, bind_assoc, drain]
      cases parseInto cfg p chunk output with
      | error e => rfl
      | ok r => exact ih r.1 r.2
  exact hrun new .empty

theorem reads_append {chunk rest : List Char} :
    Reads cfg { p with buffer := p.buffer ++ chunk } rest u cs ↔
      Reads cfg p (chunk ++ rest) u cs := by
  unfold Reads
  rw [append_assoc]

variable [Lawful]

/-- If the parser reads the same whatever follows, the chunk already gives all of it. -/
theorem parseInto_decided {chunk : List Char} (output : ToolParserOutput) (hscanned : Scanned p)
    (hall : ∀ rest, Reads cfg p (chunk ++ rest) u cs) :
    ∃ output', parseInto cfg p chunk output =
        .ok (⟨[], .afterToolCall, p.emittedToolCount + cs.length⟩, output') ∧
      Adds output output' u cs :=
  readEvents_decided output (parseInto_fuel p chunk) (hscanned.append chunk)
    fun rest => reads_append.mpr (hall rest)

/-- Chunks give what the grammar says, unless a later chunk can begin with a hidden call. -/
theorem drain_complete {chunks : List (List Char)} (output : ToolParserOutput)
    (hscanned : Scanned p) (hwait : Waiting p) (hreads : Reads cfg p chunks.flatten u cs)
    (hsafe : chunks.tail.flatten = [] ∨ ¬ Hides p chunks.flatten) :
    ∃ output', drain cfg p output chunks = .ok output' ∧ Adds output output' u cs := by
  induction chunks generalizing p output u cs with
  | nil =>
    obtain ⟨last, hlast, hadds⟩ := hwait.reads_iff.mp hreads
    obtain ⟨rfl, rfl⟩ := adds_empty_iff.mp hadds
    refine ⟨output.append last, ?_, adds_append output last⟩
    rw [drain, hlast]
    rfl
  | cons chunk chunks ih =>
    obtain ⟨q, output₁, hrun, hrests⟩ := readEvents_complete output
      (parseInto_fuel p chunk) (hscanned.append chunk) (reads_append.mpr hreads)
      (hsafe.imp_right fun h h' => h (hides_append.mp h'))
    obtain ⟨u₁, u₂, cs₁, cs₂, rfl, rfl, hadds, hnext⟩ := hrests.split
    obtain ⟨output', hrun', hadds'⟩ := ih output₁ hrests.scanned hrests.waiting hnext
      (hrests.safe.imp_left fun h => by
        cases chunks with
        | nil => rfl
        | cons chunk' chunks => exact (append_eq_nil_iff.mp h).2)
    refine ⟨output', ?_, hadds.trans hadds'⟩
    rw [drain, parseInto, hrun]
    exact hrun'

/-- What comes out of one chunk and `finish` is what the grammar reads from the text. -/
theorem drain_sound {chunk : List Char} (hscanned : Scanned p)
    (hrun : drain cfg p output [chunk] = .ok output') :
    ∃ u cs, Adds output output' u cs ∧ Reads cfg p chunk u cs := by
  rw [drain] at hrun
  cases hinto : parseInto cfg p chunk output with
  | error e =>
    rw [hinto] at hrun
    cases hrun
  | ok r =>
    obtain ⟨q, output₁⟩ := r
    rw [hinto] at hrun
    obtain ⟨hwait, hback⟩ :=
      readEvents_sound (parseInto_fuel p chunk) (hscanned.append chunk) hinto
    have hfinish : (q.finish.map output₁.append) = .ok output' := hrun
    cases hlast : q.finish with
    | error e =>
      rw [hlast] at hfinish
      cases hfinish
    | ok last =>
      rw [hlast] at hfinish
      cases hfinish
      have hadds := adds_append output₁ last
      obtain ⟨u, cs, hadds', hreads⟩ := hback _ _
        (hwait.reads_iff.mpr ⟨last, hlast, adds_empty_iff.mpr ⟨rfl, rfl⟩⟩)
      refine ⟨_, _, hadds'.trans hadds, ?_⟩
      have hreads' := reads_append.mp hreads
      rwa [append_nil] at hreads'

end GlmXmlToolParser

/-! ### Coalesced output -/

namespace ToolParserOutput

theorem foldl_mergeCall {calls merged : List ToolCallDelta}
    (hnodup : ((merged ++ calls).map ToolCallDelta.toolIndex).Nodup) :
    calls.foldl mergeCall merged = merged ++ calls := by
  induction calls generalizing merged with
  | nil => exact (append_nil merged).symm
  | cons call calls ih =>
    have hnew : ¬ merged.any (·.toolIndex = call.toolIndex) := by
      intro h
      obtain ⟨existing, hmem, hindex⟩ := any_eq_true.mp h
      rw [map_append, nodup_append] at hnodup
      exact hnodup.2.2 _ (mem_map_of_mem hmem) _ (mem_map_of_mem mem_cons_self)
        (of_decide_eq_true hindex)
    rw [foldl_cons, mergeCall, if_neg hnew]
    rw [ih (by rwa [append_assoc]), append_assoc]
    rfl

theorem calls_foldl_pushCall (calls : List ToolCallDelta) (output : ToolParserOutput) :
    (calls.foldl pushCall output).calls = output.calls ++ calls := by
  induction calls generalizing output with
  | nil => exact (append_nil _).symm
  | cons call calls ih =>
    rw [foldl_cons, ih, (GlmXmlToolParser.adds_pushCall output call).calls, append_assoc]
    rfl

/-- Calls with distinct indices are not merged. -/
theorem calls_coalesce {output : ToolParserOutput}
    (hnodup : (output.calls.map ToolCallDelta.toolIndex).Nodup) :
    output.coalesce.calls = output.calls := by
  rw [coalesce, foldl_mergeCall (by rwa [nil_append]), calls_foldl_pushCall,
    (GlmXmlToolParser.adds_pushText .empty output.normalText).calls]
  rfl

end ToolParserOutput

/-! ### Any chunking -/

theorem new_scanned : Scanned new := scanned_of_ne_toolCall (by simp [GlmMode.stage, new])

theorem new_waiting : Waiting new := by
  constructor
  · exact nil_prefix
  · decide

section
variable [Winnow] [Lawful] {cfg : Config} {out : ToolParserOutput} {cs : List ToolCallDelta}

/-- What the whole text gives, and that the grammar says so. -/
theorem exists_parses_of_whole {text : List Char} (h : parseChunks cfg [text] = .ok out) :
    ∃ output u cs, Adds .empty output u cs ∧ output.coalesce = out ∧
      Parses cfg .text 0 text u cs := by
  rw [parseChunks_eq] at h
  cases hdrain : drain cfg new .empty [text] with
  | error e =>
    rw [hdrain] at h
    cases h
  | ok output =>
    rw [hdrain] at h
    obtain ⟨u, cs, hadds, hreads⟩ := drain_sound new_scanned hdrain
    cases h
    exact ⟨output, u, cs, hadds, rfl, hreads⟩

/-- Without a hidden call every chunking gives what the whole text gives. -/
theorem parseChunks_of_not_hidden {chunks : List (List Char)} {output : ToolParserOutput}
    {u : List Char} (hadds : Adds .empty output u cs)
    (hparses : Parses cfg .text 0 chunks.flatten u cs) (hhidden : ¬ Hidden .text chunks.flatten) :
    parseChunks cfg chunks = .ok output.coalesce := by
  obtain ⟨output', hdrain, hadds'⟩ :=
    drain_complete .empty new_scanned new_waiting hparses (.inr hhidden)
  rw [parseChunks_eq, hdrain]
  have hcoalesce : output'.coalesce = output.coalesce := by
    unfold ToolParserOutput.coalesce
    rw [hadds'.text, hadds.text, hadds'.calls, hadds.calls]
  rw [← hcoalesce]
  rfl

/-- A hidden call that a chunk begins with is one call more. -/
theorem parseChunks_of_cut {p tail u : List Char} (htail : tail ≠ [])
    (hall : ∀ rest, Parses cfg .text 0 (p ++ rest) u cs)
    (h : parseChunks cfg [p, toolCallStart ++ tail] = .ok out) : cs.length < out.calls.length := by
  obtain ⟨output₁, hinto, hadds⟩ :=
    parseInto_decided .empty new_scanned (fun rest => hall rest)
  rw [parseChunks_eq] at h
  cases hdrain : drain cfg new .empty [p, toolCallStart ++ tail] with
  | error e =>
    rw [hdrain] at h
    cases h
  | ok output =>
    rw [hdrain] at h
    cases h
    rw [drain, hinto] at hdrain
    obtain ⟨v, ds, hadds', hreads⟩ :=
      drain_sound (scanned_of_ne_toolCall (by simp [GlmMode.stage])) hdrain
    have hcall : Parses cfg .call (0 + cs.length) tail v ds := (parses_after_of_start rfl).mp hreads
    have htotal : output.calls = cs ++ ds := by
      rw [hadds'.calls, hadds.calls]
      rfl
    have hindex : (output.calls.map ToolCallDelta.toolIndex).Nodup := by
      have hrange : output.calls.map ToolCallDelta.toolIndex =
          List.range' 0 (cs.length + ds.length) := by
        rw [htotal, map_append, (hall []).map_toolIndex, hcall.map_toolIndex]
        exact range'_append_1
      rw [hrange]
      exact nodup_range'
    rw [ToolParserOutput.calls_coalesce hindex, htotal, length_append]
    have hds : ds ≠ [] := by
      intro hempty
      cases hcall with
      | opened => exact htail rfl
      | call => cases hempty
    have hpos := length_pos_iff.mpr hds
    omega

/-- Feeding a text in chunks gives what the whole text gives, for every chunking, exactly if
no call is hidden in the rest that follows the calls. -/
theorem glm_chunking_iff {cfg : Config} {text : List Char} {out : ToolParserOutput}
    (h : parseChunks cfg [text] = .ok out) :
    (∀ chunks, chunks.flatten = text → parseChunks cfg chunks = .ok out) ↔ ¬ Hidden .text text := by
  obtain ⟨output, u, cs, hadds, rfl, hparses⟩ := exists_parses_of_whole h
  constructor
  · intro hsame hhidden
    obtain ⟨p, tail, rfl, htail, hall⟩ := hhidden.exists_cut hparses
    have hcut := hsame [p, toolCallStart ++ tail] (by simp)
    have hmore := parseChunks_of_cut htail hall hcut
    have hcalls : output.calls = cs := hadds.calls
    have hindex : (output.calls.map ToolCallDelta.toolIndex).Nodup := by
      rw [hcalls, hparses.map_toolIndex]
      exact nodup_range'
    rw [ToolParserOutput.calls_coalesce hindex, hcalls] at hmore
    exact lt_irrefl _ hmore
  · intro hhidden chunks hchunks
    subst hchunks
    exact parseChunks_of_not_hidden hadds hparses hhidden
end

def keysOnly (separator : Separator) : Config where
  separator := separator
  convert := fun _ params => .ok (params.flatMap Prod.fst)

def oneCall : List Char :=
  "a<tool_call>f<arg_key>k</arg_key><arg_value>v</arg_value></tool_call>".toList

def wordBetween : List Char := "<tool_call>f</tool_call>so<tool_call>g</tool_call>".toList

theorem glm_chunking_oneCall :
    @parseChunks reference (keysOnly .flexible) [oneCall] =
        .ok ⟨[.text ['a'], .toolCall ⟨0, some ['f'], ['k']⟩]⟩ ∧
      ∀ chunks, chunks.flatten = oneCall →
        @parseChunks reference (keysOnly .flexible) chunks =
          .ok ⟨[.text ['a'], .toolCall ⟨0, some ['f'], ['k']⟩]⟩ := by
  have hwhole : @parseChunks reference (keysOnly .flexible) [oneCall] =
      .ok ⟨[.text ['a'], .toolCall ⟨0, some ['f'], ['k']⟩]⟩ := by rfl
  refine ⟨hwhole, (@glm_chunking_iff reference reference_lawful _ _ _ hwhole).mpr ?_⟩
  intro h
  have hcall := (hidden_text_of_find (i := 1) rfl).mp h
  have hafter := (hidden_call_of_find (i := 45) rfl).mp hcall
  exact not_hidden_nil hafter

theorem glm_chunking_wordBetween :
    @parseChunks reference (keysOnly .flexible) [wordBetween] =
        .ok ⟨[.toolCall ⟨0, some ['f'], []⟩]⟩ ∧
      @parseChunks reference (keysOnly .flexible) [wordBetween.take 26, wordBetween.drop 26] =
        .ok ⟨[.toolCall ⟨0, some ['f'], []⟩, .toolCall ⟨1, some ['g'], []⟩]⟩ := by
  constructor <;> rfl

end Vllm.GlmXml
