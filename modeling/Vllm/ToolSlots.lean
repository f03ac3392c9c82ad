import Vllm.Outcome
import Vllm.PyText

/-!
The tool calls of one request in the parser engine. Every call has a slot that
collects its name and its raw arguments; the handlers of the semantic events
turn what is new into deltas. What depends on the request's tools beyond their
names, and on the JSON library, is a parameter.
-/
namespace Vllm.ParserEngine

open Outcome PyText

inductive EventType where
  | textChunk
  | reasoningStart
  | reasoningChunk
  | reasoningEnd
  | toolCallStart
  | toolName
  | argValueChunk
  | toolCallEnd
deriving DecidableEq, Repr

structure SemanticEvent where
  type : EventType
  value : List Char
  toolIndex : ℤ
deriving DecidableEq, Repr

structure ToolCallSlot where
  id : List Char
  name : List Char
  args : List Char
  nameSent : Bool
  stringKeys : Option (List (List Char))
  streamedJson : List Char
deriving DecidableEq, Repr

def ToolCallSlot.new : ToolCallSlot := ⟨[], [], [], false, none, []⟩

/-- What is sent for one call: its index, and what is new of the rest. -/
structure DeltaToolCall where
  index : ℤ
  id : Option (List Char)
  isFunction : Bool
  name : Option (List Char)
  arguments : Option (List Char)
deriving DecidableEq, Repr

/-- The engine's configuration together with what the request's tools give: the names, the
keys whose string values may be streamed, and the correction of argument types. -/
structure ParserEngineConfig where
  validateToolNames : Bool
  /-- `none` in place of a result is an error that the engine catches. -/
  argConverter : Option (List Char → Bool → Option (List Char))
  argStructuralChars : Option (List Char)
  streamArgDeltas : Bool
  dropWhitespaceOnlyContentBeforeTools : Bool
  stripContentWhitespaceWithTools : Bool
  /-- The GLM-4.7 parser strips names before it uses them. -/
  stripToolNames : Bool
  tools : List (List Char)
  streamableStringKeys : List Char → Option (List (List Char))
  fixArgTypes : List Char → List Char → List Char
  makeToolCallId : List Char → ℕ → List Char
  extractNameAndArgs : List Char → List Char × List Char

structure ToolState where
  toolSlots : List ToolCallSlot
  historyToolCallCnt : ℕ
deriving DecidableEq, Repr

/-! ### The prefix of an arguments text that cannot change any more -/

def quote : Char := '\x22'

def backslash : Char := '\x5c'

def openBraces : List Char := ['\x7b', '\x5b']

def closeBraces : List Char := ['\x7d', '\x5d']

structure KeyScan where
  lastColon : Option ℕ
  lastKey : Option (List Char)
  pendingKey : Option (List Char)
  inString : Bool
  escape : Bool
  stringStart : ℕ
  depth : ℤ
deriving DecidableEq, Repr

def KeyScan.init : KeyScan := ⟨none, none, none, false, false, 0, 0⟩

def KeyScan.step (jsonStr : List Char) (k : KeyScan) (c : Char × ℕ) : KeyScan :=
  if k.escape then { k with escape := false }
  else if k.inString then
    if c.1 = backslash then { k with escape := true }
    else if c.1 = quote then
      { k with
        inString := false
        pendingKey :=
          if k.depth = 1 then some ((jsonStr.take c.2).drop (k.stringStart + 1)) else k.pendingKey }
    else k
  else if c.1 = quote then { k with inString := true, stringStart := c.2 }
  else if c.1 ∈ openBraces then { k with depth := k.depth + 1 }
  else if c.1 ∈ closeBraces then { k with depth := k.depth - 1 }
  else if c.1 = ':' ∧ k.depth = 1 then
    { k with lastColon := some c.2, lastKey := k.pendingKey, pendingKey := none }
  else k

def untilQuote : Bool → List Char → List Char
  | _, [] => []
  | true, c :: s => c :: untilQuote false s
  | false, c :: s =>
    if c = backslash then c :: untilQuote true s
    else if c = quote then []
    else c :: untilQuote false s

def isJsonSpace (c : Char) : Bool := c = ' ' || c = '\t' || c = '\n' || c = '\r'

def safeArgPrefix (jsonStr : List Char) (stringKeys : Option (List (List Char))) : List Char :=
  let scan := jsonStr.zipIdx.foldl (KeyScan.step jsonStr) .init
  match scan.lastColon with
  | none => []
  | some lastColon =>
    let stop := lastColon + 1 + ((jsonStr.drop (lastColon + 1)).takeWhile isJsonSpace).length
    if jsonStr[stop]? ≠ some quote then jsonStr.take stop
    else if ∃ keys, stringKeys = some keys ∧ ∀ key ∈ keys, scan.lastKey ≠ some key then
      jsonStr.take stop
    else jsonStr.take (stop + 1) ++ untilQuote false (jsonStr.drop (stop + 1))

/-! ### Slots -/

def position (length : ℕ) (idx : ℤ) : Option ℕ :=
  if 0 ≤ idx then if idx < length then some idx.toNat else none
  else if 0 ≤ length + idx then some (length + idx).toNat
  else none

def getSlot (idx : ℤ) : EStateM Failure ToolState ToolCallSlot := do
  let s ← get
  expect ((position s.toolSlots.length idx).bind (s.toolSlots[·]?)) (.indexError "list index")

def modifySlot (idx : ℤ) (f : ToolCallSlot → ToolCallSlot) : EStateM Failure ToolState PUnit := do
  let s ← get
  let i ← expect (position s.toolSlots.length idx) (.indexError "list index")
  set { s with toolSlots := s.toolSlots.modify i f }

def ensureSlot (idx : ℤ) : EStateM Failure ToolState PUnit :=
  modify fun s =>
    { s with
      toolSlots := s.toolSlots ++ List.replicate (idx + 1 - s.toolSlots.length).toNat .new }

variable (cfg : ParserEngineConfig)

def acceptToolName (name : List Char) : Bool :=
  name ≠ [] && (!cfg.validateToolNames || cfg.tools = [] || name ∈ cfg.tools)

def ensureToolId (idx : ℤ) (name : List Char) : EStateM Failure ToolState PUnit := do
  let slot ← getSlot idx
  onlyIf (slot.id = []) do
    let s ← get
    modifySlot idx fun slot => { slot with id := cfg.makeToolCallId name s.historyToolCallCnt }
    modify fun s => { s with historyToolCallCnt := s.historyToolCallCnt + 1 }

/-- A match of `"name"\s*:\s*"([^"]*)"` at the front. -/
def nameMatch (s : List Char) : Option (List Char) :=
  let tag := [quote, 'n', 'a', 'm', 'e', quote]
  if tag <+: s then
    match (s.drop tag.length).dropWhile isSpace with
    | ':' :: s =>
      match s.dropWhile isSpace with
      | c :: s =>
        if c = quote ∧ quote ∈ s then some (s.takeWhile (· ≠ quote)) else none
      | [] => none
    | _ => none
  else none

def tryExtractName (args : List Char) : Option (List Char) :=
  (args.tails.findSome? nameMatch).filter (· ≠ [])

def handleToolName (event : SemanticEvent) : EStateM Failure ToolState PUnit :=
  modifySlot event.toolIndex fun slot => { slot with name := slot.name ++ event.value }

def sendName (idx : ℤ) (name : List Char) : EStateM Failure ToolState ToolCallSlot := do
  modifySlot idx fun slot =>
    { slot with
      name := name
      nameSent := true
      stringKeys := cfg.streamableStringKeys name }
  ensureToolId cfg idx name
  getSlot idx

def emitNameDelta (idx : ℤ) (name : Option (List Char)) :
    EStateM Failure ToolState (List DeltaToolCall) :=
  match if cfg.stripToolNames then name.map strip else name with
  | none => return []
  | some name =>
    if acceptToolName cfg name then do
      let slot ← sendName cfg idx name
      return [⟨idx, some slot.id, true, some name, none⟩]
    else return []

/-- What is new in the part of the converted arguments that cannot change any more. -/
def computeArgDelta (idx : ℤ) (rawDelta : List Char) :
    EStateM Failure ToolState (Option (List Char)) :=
  match cfg.argConverter with
  | none => return some rawDelta
  | some converter =>
    if !cfg.streamArgDeltas then return none
    else if cfg.argStructuralChars.any fun chars => rawDelta.all (· ∉ chars) then return none
    else do
      let slot ← getSlot idx
      match converter slot.args true with
      | none => return none
      | some currentJson =>
        if currentJson = [] then return none
        else
          let currentJson :=
            if slot.name = [] then currentJson else cfg.fixArgTypes currentJson slot.name
          let safeJson := safeArgPrefix currentJson slot.stringKeys
          if safeJson = [] ∨ safeJson = slot.streamedJson ∨ ¬ slot.streamedJson <+: safeJson then
            return none
          else do
            modifySlot idx fun slot => { slot with streamedJson := safeJson }
            return some (safeJson.drop slot.streamedJson.length)

def flushArgConverter (idx : ℤ) : EStateM Failure ToolState (Option (List Char)) :=
  match cfg.argConverter with
  | none => return none
  | some converter => do
    let slot ← getSlot idx
    match converter slot.args false with
    | none => return none
    | some finalJson =>
      let finalJson := if finalJson = [] then [] else cfg.fixArgTypes finalJson slot.name
      if slot.streamedJson.length < finalJson.length ∧ slot.streamedJson <+: finalJson then do
        modifySlot idx fun slot => { slot with streamedJson := finalJson }
        return some (finalJson.drop slot.streamedJson.length)
      else return none

def handleArgChunk (event : SemanticEvent) : EStateM Failure ToolState (List DeltaToolCall) := do
  let idx := event.toolIndex
  modifySlot idx fun slot => { slot with args := slot.args ++ event.value }
  let slot ← getSlot idx
  if !slot.nameSent then
    if slot.name ≠ [] then emitNameDelta cfg idx (some slot.name)
    else if event.value ≠ [] then emitNameDelta cfg idx (tryExtractName slot.args)
    else return []
  else if event.value ≠ [] then
    match ← computeArgDelta cfg idx event.value with
    | none => return []
    | some argDelta =>
      if argDelta = [] then return [] else return [⟨idx, none, false, none, some argDelta⟩]
  else return []

def handleToolEnd (event : SemanticEvent) : EStateM Failure ToolState (List DeltaToolCall) := do
  let idx := event.toolIndex
  let s ← get
  if s.toolSlots.length ≤ idx then return []
  else
    onlyIf (cfg.stripToolNames ∧ 0 ≤ idx) do
      modifySlot idx fun slot => { slot with name := strip slot.name }
    let remaining ← flushArgConverter cfg idx
    let slot ← getSlot idx
    let name := if slot.name ≠ [] then slot.name else (tryExtractName slot.args).getD []
    if !slot.nameSent && acceptToolName cfg name then
      let slot ← sendName cfg idx name
      return [⟨idx, some slot.id, true, some name, some (remaining.getD [])⟩]
    else
      match remaining with
      | some remaining =>
        if slot.nameSent ∧ remaining ≠ [] then return [⟨idx, none, false, none, some remaining⟩]
        else return []
      | none => return []

/-! ### Deltas of one step -/

def DeltaToolCall.merge (existing tc : DeltaToolCall) : DeltaToolCall where
  index := existing.index
  id := existing.id.or tc.id
  isFunction := existing.isFunction || tc.isFunction
  name := existing.name.or tc.name
  arguments :=
    match existing.arguments, tc.arguments with
    | some a, some b => some (a ++ b)
    | a, b => a.or b

def mergeDelta (merged : List DeltaToolCall) (tc : DeltaToolCall) : List DeltaToolCall :=
  if merged.any (·.index = tc.index) then
    merged.map fun existing => if existing.index = tc.index then existing.merge tc else existing
  else merged ++ [tc]

def coalesceToolCallDeltas (deltas : List DeltaToolCall) : List DeltaToolCall :=
  deltas.foldl mergeDelta []

end Vllm.ParserEngine
