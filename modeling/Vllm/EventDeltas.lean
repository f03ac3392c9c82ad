import Vllm.ToolSlots

/-!
From semantic events to deltas. Text before the first tool event of a step goes
out with the step; text after it is parked and goes out with a later step. A
step that is not the last also parks text that is only whitespace so far, in
case a tool call follows.
-/
namespace Vllm.ParserEngine

open Outcome PyText

structure DeltaMessage where
  content : Option (List Char)
  reasoning : Option (List Char)
  toolCalls : List DeltaToolCall
deriving DecidableEq, Repr

structure Parser where
  tools : ToolState
  deferredContent : List Char
  contentHasNonws : Bool
  suppressToolCalls : Bool
deriving DecidableEq, Repr

structure DeltaParts where
  toolCallDeltas : List DeltaToolCall
  content : List Char
  reasoning : List Char
  seenToolEvent : Bool
deriving DecidableEq, Repr

def DeltaParts.empty : DeltaParts := ⟨[], [], [], false⟩

def onTools {α : Type} (m : EStateM Failure ToolState α) : EStateM Failure Parser α :=
  zoom Parser.tools (fun s tools => { s with tools := tools }) m

variable (cfg : ParserEngineConfig)

/-- What a tool event does to the slots, and the deltas it gives. -/
def handleToolEvent (event : SemanticEvent) : EStateM Failure ToolState (List DeltaToolCall) := do
  match event.type with
  | .toolCallStart => do
    ensureSlot event.toolIndex
    return []
  | .toolName => do
    handleToolName event
    return []
  | .argValueChunk => handleArgChunk cfg event
  | .toolCallEnd => handleToolEnd cfg event
  | _ => return []

def applyEvent (parts : DeltaParts) (event : SemanticEvent) :
    EStateM Failure Parser DeltaParts := do
  match event.type with
  | .textChunk =>
    if parts.seenToolEvent then do
      modify fun s => { s with deferredContent := s.deferredContent ++ event.value }
      return parts
    else return { parts with content := parts.content ++ event.value }
  | .reasoningChunk => return { parts with reasoning := parts.reasoning ++ event.value }
  | .reasoningStart | .reasoningEnd => return parts
  | .toolCallStart | .toolName | .argValueChunk | .toolCallEnd => do
    let s ← get
    if s.suppressToolCalls then return parts
    else do
      let deltas ← onTools (handleToolEvent cfg event)
      return { parts with
        seenToolEvent := true
        toolCallDeltas := parts.toolCallDeltas ++ deltas }

def releaseDeferred (parts : DeltaParts) : EStateM Failure Parser (List Char) := do
  -- Parked text goes out in front when the step has no tool call to send.
  let s ← get
  if s.deferredContent ≠ [] ∧ (!parts.seenToolEvent ∨ parts.toolCallDeltas = []) then do
    set { s with deferredContent := [] }
    return s.deferredContent ++ parts.content
  else return parts.content

def holdWhitespace (finished : Bool) (content : List Char) :
    EStateM Failure Parser (List Char) := do
  -- Leading whitespace is dropped before tool calls and parked while they may follow.
  let s ← get
  if s.contentHasNonws ∨ content = [] then return content
  else if strip content ≠ [] then do
    set { s with contentHasNonws := true }
    return content
  else if s.tools.toolSlots ≠ [] then
    if cfg.dropWhitespaceOnlyContentBeforeTools then return [] else return content
  else if !finished then do
    set { s with deferredContent := content }
    return []
  else return content

def nonempty (text : List Char) : Option (List Char) := if text = [] then none else some text

def eventsToDelta (events : List SemanticEvent) (finished : Bool) :
    EStateM Failure Parser (Option DeltaMessage) := do
  let s ← get
  if events = [] ∧ s.deferredContent = [] then return none
  else
    let parts ← events.foldlM (applyEvent cfg) .empty
    let content ← releaseDeferred parts
    let content ← holdWhitespace cfg finished content
    if content ≠ [] ∨ parts.toolCallDeltas ≠ [] ∨ parts.reasoning ≠ [] then
      return some
        ⟨nonempty content, nonempty parts.reasoning, coalesceToolCallDeltas parts.toolCallDeltas⟩
    else return none

/-! ### A whole output at once -/

def reset (s : Parser) : Parser :=
  { s with
    tools := { s.tools with toolSlots := [] }
    deferredContent := []
    contentHasNonws := false }

structure FunctionCall where
  id : List Char
  name : List Char
  arguments : List Char
deriving DecidableEq, Repr

def extractCall (slot : ToolCallSlot) : Option (List Char × List Char) :=
  if slot.name = [] ∧ slot.args = [] then none
  else
    let name := strip slot.name
    let call :=
      if name = [] ∧ strip slot.args ≠ [] then cfg.extractNameAndArgs slot.args
      else if strip slot.args ≠ [] then
        match cfg.argConverter.bind fun converter => converter slot.args false with
        | some argsJson => (name, argsJson)
        | none => (name, (cfg.extractNameAndArgs slot.args).2)
      else (name, ['\x7b', '\x7d'])
    if acceptToolName cfg call.1 then some (call.1, cfg.fixArgTypes call.2 call.1) else none

def buildExtractedResult : ℕ → EStateM Failure ToolState (List FunctionCall)
  | 0 => return []
  | n + 1 => do
    let s ← get
    let idx := s.toolSlots.length - (n + 1)
    let slot ← getSlot idx
    match extractCall cfg slot with
    | none => buildExtractedResult n
    | some (name, arguments) => do
      ensureToolId cfg idx name
      let slot ← getSlot idx
      let calls ← buildExtractedResult n
      return ⟨slot.id, name, arguments⟩ :: calls

def stripContentWhitespace (content : List Char) (toolsCalled : Bool) : Option (List Char) :=
  nonempty
    (if toolsCalled then
      if cfg.stripContentWhitespaceWithTools then strip content
      else if cfg.dropWhitespaceOnlyContentBeforeTools ∧ strip content = [] then []
      else content
    else content)

/-- `_single_pass_parse` from the events of the whole output on: the content and the calls. -/
def singlePassParse (events : List SemanticEvent) :
    EStateM Failure Parser (Option (List Char) × List FunctionCall) := do
  modify reset
  let delta ← eventsToDelta cfg events true
  let s ← get
  let calls ← onTools (buildExtractedResult cfg s.tools.toolSlots.length)
  return ((delta.bind DeltaMessage.content).bind (stripContentWhitespace cfg · (calls ≠ [])), calls)

end Vllm.ParserEngine
