import Vllm.MarkerSearch

/-!
The token id scanner. A delta carries token ids and a text that may lag behind
them. Special tokens become terminals at the place of their text; a terminal
whose text has not arrived is deferred, and with it the text that may belong in
front of it. Token texts do not depend on their context here. The token counts
that the items carry along are left out: nothing here depends on them.
-/
namespace Vllm.TokenScanner

open MarkerSearch

/-- The name of a terminal; dropped special tokens share one. -/
inductive TerminalName where
  | drop
  | named (name : List Char)
deriving DecidableEq, Repr

structure PreLexedTerminal where
  terminal : TerminalName
  tokenId : ℕ
  text : List Char
deriving DecidableEq, Repr

inductive LexerInput where
  | textChunk (text : List Char)
  | terminal (terminal : PreLexedTerminal)
deriving DecidableEq, Repr

structure Config where
  tokenIdToTerminal : ℕ → Option TerminalName
  decodeToken : ℕ → List Char

structure Scanner where
  deferredTerminals : List PreLexedTerminal
  deferredPostText : List Char
deriving DecidableEq, Repr

def Scanner.new : Scanner := ⟨[], []⟩

variable (cfg : Config)

def preLexed (tid : ℕ) : Option PreLexedTerminal :=
  (cfg.tokenIdToTerminal tid).map fun terminal => ⟨terminal, tid, cfg.decodeToken tid⟩

def chunk (text : List Char) : List LexerInput := if text = [] then [] else [.textChunk text]

/-! ### Deferred terminals -/

/-- The deferred terminals against the text, left to right: the items found, what is deferred
again, and the text that is left. -/
def resolveDeferred : List PreLexedTerminal → List Char → List LexerInput × Scanner × List Char
  | [], remaining => ([], .new, remaining)
  | terminal :: deferred, remaining =>
    match find terminal.text remaining with
    | some pos =>
      let (items, s, rest) :=
        resolveDeferred deferred (remaining.drop (pos + terminal.text.length))
      (chunk (remaining.take pos) ++ .terminal terminal :: items, s, rest)
    | none =>
      let (items, s, rest) := resolveDeferred deferred []
      (items, ⟨terminal :: s.deferredTerminals, remaining ++ s.deferredPostText⟩, rest)

/-! ### The tokens of a delta -/

/-- Chunks and terminals as the tokens decode one by one; `accum` is the text so far. -/
def groupTokens (accum : List Char) : List ℕ → List LexerInput
  | [] => chunk accum
  | tid :: tids =>
    match preLexed cfg tid with
    | some terminal => chunk accum ++ .terminal terminal :: groupTokens [] tids
    | none => groupTokens (accum ++ cfg.decodeToken tid) tids

def LexerInput.text : LexerInput → List Char
  | .textChunk t => t
  | .terminal t => t.text

def terminalsOf (items : List LexerInput) : List PreLexedTerminal :=
  items.filterMap fun
    | .textChunk _ => none
    | .terminal terminal => some terminal

def joinDecodedText (items : List LexerInput) : List Char := items.flatMap LexerInput.text

/-- The places of the anchors, resolved right to left, and where the leftmost one starts. -/
def anchorPositions (deltaText : List Char) : List PreLexedTerminal → List (Option ℕ) × ℕ
  | [] => ([], deltaText.length)
  | anchor :: anchors =>
    let (positions, searchEnd) := anchorPositions deltaText anchors
    match rfind anchor.text deltaText searchEnd with
    | some pos => (some pos :: positions, pos)
    | none => (none :: positions, searchEnd)

def placeAnchors (deltaText : List Char) :
    List (PreLexedTerminal × Option ℕ) → ℕ → Scanner → List LexerInput × Scanner
  -- The anchors at their places, left to right from `consumed` on. An anchor without a place is
  -- deferred, and the rest of the text with it unless a later anchor has a place or the token is
  -- a dropped one.
  | [], consumed, s => (chunk (deltaText.drop consumed), s)
  | (anchor, pos) :: anchors, consumed, s =>
    match pos.filter (consumed ≤ ·) with
    | some pos =>
      let (items, s) := placeAnchors deltaText anchors (pos + anchor.text.length) s
      (chunk ((deltaText.take pos).drop consumed) ++ .terminal anchor :: items, s)
    | none =>
      if (∀ later ∈ anchors, later.2 = none) ∧ consumed < deltaText.length ∧
          anchor.terminal ≠ .drop then
        placeAnchors deltaText anchors deltaText.length
          ⟨s.deferredTerminals ++ [anchor], s.deferredPostText ++ deltaText.drop consumed⟩
      else
        placeAnchors deltaText anchors consumed
          ⟨s.deferredTerminals ++ [anchor], s.deferredPostText⟩

def rebuildFromAnchors (deltaText : List Char) (results : List LexerInput) (s : Scanner) :
    List LexerInput × Scanner :=
  let anchors := terminalsOf results
  if anchors = [] then ([.textChunk deltaText], s)
  else
    placeAnchors deltaText (anchors.zip (anchorPositions deltaText anchors).1) 0 s

def recoverHoldbackText (deltaText : List Char) (results : List LexerInput) (s : Scanner) :
    List LexerInput × Scanner :=
  if results = [] then ([.textChunk deltaText], s)
  else
    let reconstructed := joinDecodedText results
    if reconstructed = [] then (.textChunk deltaText :: results, s)
    else
      match find reconstructed deltaText with
      | some pos => (chunk (deltaText.take pos) ++ results, s)
      | none => rebuildFromAnchors deltaText results s

def scan (deltaText : List Char) (deltaTokenIds : List ℕ) (s : Scanner) :
    List LexerInput × Scanner :=
  let (items, s, effectiveText) :=
    if s.deferredTerminals = [] then ([], s, deltaText)
    else resolveDeferred s.deferredTerminals (s.deferredPostText ++ deltaText)
  if deltaTokenIds.all fun tid => (cfg.tokenIdToTerminal tid).isNone then
    (items ++ chunk effectiveText, s)
  else
    let results := groupTokens cfg [] deltaTokenIds
    if effectiveText ≠ [] then
      let (results, s) := recoverHoldbackText effectiveText results s
      (items ++ results, s)
    else
      (items, { s with deferredTerminals := s.deferredTerminals ++ terminalsOf results })

def flushPending (s : Scanner) : List LexerInput :=
  chunk s.deferredPostText ++ s.deferredTerminals.map .terminal

structure Delta where
  text : List Char
  tokenIds : List ℕ
deriving DecidableEq, Repr

def scanAll : List Delta → Scanner → List LexerInput
  | [], s => flushPending s
  | delta :: deltas, s =>
    let (items, s) := scan cfg delta.text delta.tokenIds s
    items ++ scanAll deltas s

end Vllm.TokenScanner
