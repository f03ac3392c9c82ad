import Mathlib.Data.List.DropRight
import Vllm.Winnow

/-!
The GLM XML tool parser. Decoded text arrives in chunks; the parser keeps what
it cannot decide yet in a buffer and reads one event after the other from its
front: plain text, the start of a tool call, a complete call, or the rest after
a call. Text is a list of characters and offsets count characters: the code's
byte offsets always stand at character boundaries. The parsing library `winnow`
and how a tool list turns raw parameters into an arguments text are parameters.
-/
namespace Vllm.GlmXml

open MarkerSearch Winnow

def toolCallStart : List Char := ['<', 't', 'o', 'o', 'l', '_', 'c', 'a', 'l', 'l', '>']

def toolCallEnd : List Char := ['<', '/', 't', 'o', 'o', 'l', '_', 'c', 'a', 'l', 'l', '>']

def argKeyStart : List Char := ['<', 'a', 'r', 'g', '_', 'k', 'e', 'y', '>']

def argKeyEnd : List Char := ['<', '/', 'a', 'r', 'g', '_', 'k', 'e', 'y', '>']

def argValueStart : List Char := ['<', 'a', 'r', 'g', '_', 'v', 'a', 'l', 'u', 'e', '>']

def argValueEnd : List Char := ['<', '/', 'a', 'r', 'g', '_', 'v', 'a', 'l', 'u', 'e', '>']

inductive ToolParserError where
  /-- No event can be read from the front of the buffer. -/
  | parsingFailed
  /-- The arguments could not be serialized. -/
  | argumentsNotSerialized
  /-- The stream ended inside a tool call. -/
  | incompleteToolCall
deriving DecidableEq, Repr

/-- The end scan of a tool call remembers where to resume. -/
inductive GlmMode where
  | text
  | toolCall (scanStart : ℕ)
  | afterToolCall
deriving DecidableEq, Repr

inductive Separator where
  /-- GLM-4.5/4.6: the function name ends at a newline. -/
  | newline
  /-- GLM-4.7: the function name ends at whitespace or at a tag. -/
  | flexible
deriving DecidableEq, Repr

abbrev RawParams := List (List Char × List Char)

inductive GlmEvent where
  | text (len : ℕ)
  | toolCallStart
  | toolCall (name : List Char) (rawParams : RawParams)
  | ignoredRest
deriving DecidableEq, Repr

/-! ### The body of a call, a complete text -/

/-- `char::is_whitespace`: the Unicode property `White_Space`. -/
def isWhitespace (c : Char) : Bool :=
  let n := c.toNat
  (9 ≤ n && n ≤ 13) || n = 32 || n = 0x85 || n = 0xA0 || n = 0x1680 ||
    (0x2000 ≤ n && n ≤ 0x200A) || n = 0x2028 || n = 0x2029 || n = 0x202F || n = 0x205F || n = 0x3000

def trim (s : List Char) : List Char := s.dropWhile isWhitespace |>.rdropWhile isWhitespace

section
variable [Winnow]

def parseNewlineSeparatedFunctionName : Parser (List Char) :=
  seq (takeUntil 1 ['\n']) fun name =>
  seq (literal .complete ['\n']) fun _ =>
  done (trim name)

def parseFlexibleFunctionName : Parser (List Char) :=
  seq (takeWhile 1 fun c => !isWhitespace c && c ≠ '<') fun name =>
  seq (multispace0 .complete) fun _ =>
  done name

def parseParameter : Parser (List Char × List Char) :=
  seq (literal .complete argKeyStart) fun _ =>
  seq (takeUntil 1 argKeyEnd) fun key =>
  seq (literal .complete argKeyEnd) fun _ =>
  seq (multispace0 .complete) fun _ =>
  seq (literal .complete argValueStart) fun _ =>
  seq (takeUntil 0 argValueEnd) fun value =>
  seq (literal .complete argValueEnd) fun _ =>
  done (trim key, trim value)

def parseParameters : Parser RawParams :=
  repeat0 (seq parseParameter fun param => seq (multispace0 .complete) fun _ => done param)

def nameAndParameters (functionName : Parser (List Char)) : Parser (List Char × RawParams) :=
  seq (multispace0 .complete) fun _ =>
  seq functionName fun name =>
  seq parseParameters fun rawParams =>
  seq (multispace0 .complete) fun _ =>
  seq eof fun _ =>
  done (name, rawParams)

def parseToolCallBody (separator : Separator) (body : List Char) : Except ErrMode GlmEvent := do
  let ((name, rawParams), _) ← match separator with
    | .newline => nameAndParameters parseNewlineSeparatedFunctionName body
    | .flexible => nameAndParameters parseFlexibleFunctionName body
  return .toolCall name rawParams

/-! ### One event from the front of a buffer that may grow -/

def toolCallStartEvent : Parser GlmEvent :=
  seq (literal .growing toolCallStart) fun _ => done .toolCallStart
end

/-- Text up to the marker, or all but what may become the marker. -/
def safeTextLen (marker input : List Char) : Except ErrMode (ℕ × List Char) :=
  if input = [] then .error .incomplete
  else
    match find marker input with
    | some start => .ok (start, input.drop start)
    | none =>
      let emitLen := input.length - partialPrefixLen marker input
      if emitLen = 0 then .error .incomplete else .ok (emitLen, input.drop emitLen)

def safeTextEvent : Parser GlmEvent := fun input =>
  (safeTextLen toolCallStart input).map fun (len, rest) => (.text len, rest)

section
variable [Winnow]

def parseTextEvent : Parser GlmEvent := alt toolCallStartEvent safeTextEvent

def ignoredRestEvent : Parser GlmEvent := seq rest fun _ => done .ignoredRest

def afterToolCallEvent : Parser GlmEvent := fun input => do
  let (_, input) ← multispace0 .growing input
  alt toolCallStartEvent ignoredRestEvent input

/-- Text up to the marker, searched from where the last search stopped; also returns where
the next search starts. -/
def takeUntilMarker (marker : List Char) (scanStart : ℕ) (input : List Char) :
    Except ErrMode (List Char × List Char) × ℕ :=
  if input = [] then (.error .incomplete, scanStart)
  else
    let scanStart := min scanStart input.length
    match find marker (input.drop scanStart) with
    | some offset =>
      (.ok (input.take (scanStart + offset), input.drop (scanStart + offset)), 0)
    | none => (.error .incomplete, input.length - partialPrefixLen marker input)

def toolCallEvent (separator : Separator) (scanStart : ℕ) (input : List Char) :
    Except ErrMode (GlmEvent × List Char) × ℕ :=
  let call : Parser (List Char) :=
    seq (fun input => (takeUntilMarker toolCallEnd scanStart input).1) fun body =>
    seq (literal .growing toolCallEnd) fun _ =>
    done body
  let event : Except ErrMode (GlmEvent × List Char) := do
    let (body, rest) ← call input
    let event ← parseToolCallBody separator body
    return (event, rest)
  (event, (takeUntilMarker toolCallEnd scanStart input).2)

/-- An event and the rest of the input; the mode carries the new scan position. -/
def parseNextGlmEvent (separator : Separator) (mode : GlmMode) (input : List Char) :
    Except ErrMode (GlmEvent × List Char) × GlmMode :=
  match mode with
  | .text => (parseTextEvent input, .text)
  | .toolCall scanStart =>
    let (event, scanStart) := toolCallEvent separator scanStart input
    (event, .toolCall scanStart)
  | .afterToolCall => (afterToolCallEvent input, .afterToolCall)
end

/-! ### Output -/

structure ToolCallDelta where
  toolIndex : ℕ
  name : Option (List Char)
  arguments : List Char
deriving DecidableEq, Repr

inductive ToolParserEvent where
  | text (text : List Char)
  | toolCall (call : ToolCallDelta)
deriving DecidableEq, Repr

structure ToolParserOutput where
  events : List ToolParserEvent
deriving DecidableEq, Repr

namespace ToolParserOutput

def empty : ToolParserOutput := ⟨[]⟩

/-- Non-empty text, joined to a text event at the end. -/
def pushText (output : ToolParserOutput) (text : List Char) : ToolParserOutput :=
  if text = [] then output
  else
    match output.events.getLast? with
    | some (.text last) => ⟨output.events.dropLast ++ [.text (last ++ text)]⟩
    | _ => ⟨output.events ++ [.text text]⟩

def pushCall (output : ToolParserOutput) (call : ToolCallDelta) : ToolParserOutput :=
  ⟨output.events ++ [.toolCall call]⟩

def normalText (output : ToolParserOutput) : List Char :=
  output.events.flatMap fun
    | .text text => text
    | .toolCall _ => []

def calls (output : ToolParserOutput) : List ToolCallDelta :=
  output.events.filterMap fun
    | .text _ => none
    | .toolCall call => some call

def append (output other : ToolParserOutput) : ToolParserOutput :=
  other.events.foldl (fun output event => match event with
    | .text text => output.pushText text
    | .toolCall call => output.pushCall call) output

/-- One more delta, merged into the call of its index. -/
def mergeCall (merged : List ToolCallDelta) (call : ToolCallDelta) : List ToolCallDelta :=
  if merged.any (·.toolIndex = call.toolIndex) then
    merged.map fun existing =>
      if existing.toolIndex = call.toolIndex then
        { existing with
          name := existing.name.or call.name
          arguments := existing.arguments ++ call.arguments }
      else existing
  else merged ++ [call]

def coalesce (output : ToolParserOutput) : ToolParserOutput :=
  -- All text first, then the calls in the order in which their indices were first seen.
  (output.calls.foldl mergeCall []).foldl pushCall (empty.pushText output.normalText)

end ToolParserOutput

/-! ### The parser -/

structure GlmXmlToolParser where
  buffer : List Char
  mode : GlmMode
  emittedToolCount : ℕ
deriving DecidableEq, Repr

/-- What a parser is built with: the separator, and how its tools convert the parameters
of a call. -/
structure Config where
  separator : Separator
  convert : List Char → RawParams → Except ToolParserError (List Char)

namespace GlmXmlToolParser

def new : GlmXmlToolParser := ⟨[], .text, 0⟩

variable [Winnow] (cfg : Config) (p : GlmXmlToolParser)

def applyEvent (output : ToolParserOutput) :
    GlmEvent → Except ToolParserError (GlmXmlToolParser × ToolParserOutput)
  | .text len => .ok (p, output.pushText (p.buffer.take len))
  | .toolCallStart => .ok ({ p with mode := .toolCall 0 }, output)
  | .toolCall name rawParams => do
    let arguments ← cfg.convert name rawParams
    return ({ p with mode := .afterToolCall, emittedToolCount := p.emittedToolCount + 1 },
      output.pushCall ⟨p.emittedToolCount, some name, arguments⟩)
  | .ignoredRest => .ok (p, output)

/-- The body of the loop of `parse_into`: `true` if an event was read. -/
def readEvent (output : ToolParserOutput) :
    Except ToolParserError (Bool × GlmXmlToolParser × ToolParserOutput) :=
  match parseNextGlmEvent cfg.separator p.mode p.buffer with
  | (.error .incomplete, mode) => .ok (false, { p with mode := mode }, output)
  | (.error .backtrack, _) | (.error .cut, _) => .error .parsingFailed
  | (.ok (event, rest), mode) =>
    if rest.length = p.buffer.length then .ok (false, { p with mode := mode }, output)
    else do
      let (p, output) ← applyEvent cfg { p with mode := mode } output event
      return (true, { p with buffer := rest }, output)

/-- The loop of `parse_into`. An event takes at least one character of the buffer. -/
def readEvents : ℕ → GlmXmlToolParser → ToolParserOutput →
    Except ToolParserError (GlmXmlToolParser × ToolParserOutput)
  | 0, p, output => .ok (p, output)
  | fuel + 1, p, output => do
    match ← readEvent cfg p output with
    | (false, p, output) => return (p, output)
    | (true, p, output) => readEvents fuel p output

def parseInto (chunk : List Char) (output : ToolParserOutput) :
    Except ToolParserError (GlmXmlToolParser × ToolParserOutput) :=
  readEvents cfg (p.buffer.length + chunk.length + 1) { p with buffer := p.buffer ++ chunk } output

/-- What `finish` returns; it also resets the parser. -/
def finish (p : GlmXmlToolParser) : Except ToolParserError ToolParserOutput :=
  if p.buffer = [] then .ok .empty
  else
    match p.mode with
    | .text => .ok (ToolParserOutput.empty.pushText p.buffer)
    | .toolCall _ => .error .incompleteToolCall
    | .afterToolCall => .ok .empty

def parseChunks (chunks : List (List Char)) : Except ToolParserError ToolParserOutput := do
  let (p, output) ← chunks.foldlM
    (fun (p, output) chunk => parseInto cfg p chunk output) (new, .empty)
  let last ← p.finish
  return (output.append last).coalesce

end GlmXmlToolParser

end Vllm.GlmXml
