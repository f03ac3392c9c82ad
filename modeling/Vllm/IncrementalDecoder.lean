import Vllm.Utf8Lossy
import Mathlib.Algebra.BigOperators.Group.List.Basic
import Mathlib.Algebra.Order.Ring.Nat

/-!
The incremental decoder of generated tokens. It decodes a window of ids whose first
part was given out before, takes off as many bytes as that part decodes to and gives
out the rest, unless it ends in a replacement character. The first window is a piece
of the prompt.
-/
namespace Vllm.Incremental

open Utf8Lossy List

/-! ### Strings and their bytes -/

def byteLen (s : List Char) : ℕ := (s.map Char.utf8Size).sum

def headBytes : List Char → ℕ → List Char
  | [], _ => []
  | c :: s, n => if c.utf8Size ≤ n then c :: headBytes s (n - c.utf8Size) else []

def tailBytes (s : List Char) (n : ℕ) : List Char := s.drop (headBytes s n).length

def floorCharBoundary (s : List Char) (n : ℕ) : ℕ := byteLen (headBytes s n)

@[simp] theorem byteLen_nil : byteLen [] = 0 := rfl

@[simp] theorem byteLen_cons (c : Char) (s : List Char) :
    byteLen (c :: s) = c.utf8Size + byteLen s := rfl

variable (s t : List Char)

@[simp] theorem byteLen_append : byteLen (s ++ t) = byteLen s + byteLen t := by
  simp [byteLen]

theorem byteLen_eq_zero {s : List Char} (h : byteLen s = 0) : s = [] := by
  cases s with
  | nil => rfl
  | cons c s =>
    have hpos := c.utf8Size_pos
    rw [byteLen_cons] at h
    omega

theorem headBytes_append : headBytes (s ++ t) (byteLen s) = s := by
  induction s with
  | nil =>
    cases t with
    | nil => rfl
    | cons c t =>
      have hpos := c.utf8Size_pos
      simp only [nil_append, byteLen_nil, headBytes]
      rw [if_neg (by omega)]
  | cons c s ih => simp [headBytes, ih]

theorem tailBytes_append : tailBytes (s ++ t) (byteLen s) = t := by
  unfold tailBytes
  rw [headBytes_append, drop_left]

theorem headBytes_prefix (s : List Char) (n : ℕ) : headBytes s n <+: s := by
  induction s generalizing n with
  | nil => exact prefix_refl []
  | cons c s ih =>
    rw [headBytes]
    split_ifs
    · exact (cons_prefix_cons).mpr ⟨rfl, ih _⟩
    · exact nil_prefix

/-- Of two beginnings of a text the one with more bytes continues the other. -/
theorem exists_eq_append_of_byteLen_lt {s t text : List Char} (hs : s <+: text) (ht : t <+: text)
    (hlt : byteLen s < byteLen t) : ∃ u, t = s ++ u := by
  rcases prefix_or_prefix_of_prefix hs ht with ⟨u, hu⟩ | ⟨u, hu⟩
  · exact ⟨u, hu.symm⟩
  · rw [← hu, byteLen_append] at hlt
    omega

/-! ### The decoder -/

structure Tokenizer (ι ε : Type) where
  decode : List ι → Bool → Except ε (List Char)
  idToToken : ι → Option (List Char)

structure DecodeStream (ι : Type) where
  skipSpecialTokens : Bool
  minBytesToBuffer : ℕ
  ids : List ι
  prefixText : List Char
  prefixIndex : ℕ
  prefixSeeded : Bool
  cumulativeOutput : List Char
  outputIndex : ℕ

def safeSuffixMin : ℕ := 4

def safeSuffixMax : ℕ := 6

/-- The lengths of prompt suffixes that `seed_prefix` tries. -/
def suffixLens (promptLen : ℕ) : List ℕ :=
  if safeSuffixMin < promptLen then
    List.range' safeSuffixMin (min safeSuffixMax (promptLen - 1) + 1 - safeSuffixMin)
  else []

namespace DecodeStream

variable {ι ε : Type}

def new (promptTokenIds : List ι) (skipSpecialTokens : Bool) (minBytesToBuffer : ℕ) :
    DecodeStream ι :=
  { skipSpecialTokens, minBytesToBuffer, ids := promptTokenIds, prefixText := [], prefixIndex := 0,
    prefixSeeded := promptTokenIds.isEmpty, cumulativeOutput := [], outputIndex := 0 }

def decodePromptContext (t : Tokenizer ι ε) (d : DecodeStream ι) (ids : List ι) :
    Except ε (List Char × List ι) :=
  match t.decode ids d.skipSpecialTokens with
  | .ok decoded => .ok (decoded, ids)
  | .error error =>
    let filtered := ids.filter fun id => (t.idToToken id).isSome
    if filtered.length = ids.length then .error error
    else (t.decode filtered d.skipSpecialTokens).map fun decoded => (decoded, filtered)

/-- The loop of `seed_prefix`, over the suffix lengths still to be tried. -/
def seedFromSuffix (t : Tokenizer ι ε) (d : DecodeStream ι) :
    List ℕ → Except ε (Option (DecodeStream ι))
  | [] => .ok none
  | suffixLen :: rest => do
    let (decoded, contextIds) ← d.decodePromptContext t (d.ids.drop (d.ids.length - suffixLen))
    if replacement ∉ decoded ∧ safeSuffixMin ≤ contextIds.length then
      return some { d with
        prefixText := decoded, ids := contextIds, prefixIndex := contextIds.length }
    else seedFromSuffix t d rest

def seedPrefix (t : Tokenizer ι ε) (d : DecodeStream ι) : Except ε (DecodeStream ι) := do
  match ← d.seedFromSuffix t (suffixLens d.ids.length) with
  | some d => return d
  | none =>
    let (decoded, contextIds) ← d.decodePromptContext t d.ids
    if decoded.getLast? = some replacement then return { d with ids := contextIds }
    else return { d with
      ids := contextIds, prefixText := decoded, prefixIndex := contextIds.length }

/-- The second half of `push_token`, once the window is seeded. -/
def pushSeeded (t : Tokenizer ι ε) (d : DecodeStream ι) (tokenId : ι) :
    Except ε (DecodeStream ι × ℕ) := do
  let ids := d.ids ++ [tokenId]
  let string ← t.decode ids d.skipSpecialTokens
  let prefixLen := byteLen d.prefixText
  if byteLen string ≤ prefixLen ∨ string.getLast? = some replacement then
    return ({ d with ids }, 0)
  else
    let newChunk := tailBytes string prefixLen
    let ids := ids.drop d.prefixIndex
    let prefixText ← t.decode ids d.skipSpecialTokens
    return ({ d with
      ids, prefixText, prefixIndex := ids.length
      cumulativeOutput := d.cumulativeOutput ++ newChunk }, byteLen newChunk)

def pushToken (t : Tokenizer ι ε) (d : DecodeStream ι) (tokenId : ι) :
    Except ε (DecodeStream ι × ℕ) := do
  if d.prefixSeeded = false ∧ d.ids.isEmpty = false then
    let d ← d.seedPrefix t
    pushSeeded t { d with prefixSeeded := true } tokenId
  else pushSeeded t d tokenId

def nextChunk (d : DecodeStream ι) : DecodeStream ι × Option (List Char) :=
  let cutoff := floorCharBoundary d.cumulativeOutput
    (byteLen d.cumulativeOutput - d.minBytesToBuffer)
  if d.outputIndex < cutoff then
    ({ d with outputIndex := cutoff },
      some (tailBytes (headBytes d.cumulativeOutput cutoff) d.outputIndex))
  else (d, none)

/-- `flush(None)`: the last chunk and the full text. -/
def flush (t : Tokenizer ι ε) (d : DecodeStream ι) : Except ε (Option (List Char) × List Char) := do
  let cumulativeOutput ←
    if d.prefixSeeded ∧ d.ids.isEmpty = false then do
      let string ← t.decode d.ids d.skipSpecialTokens
      pure (d.cumulativeOutput ++ tailBytes string (byteLen d.prefixText))
    else pure d.cumulativeOutput
  let lastChunk :=
    if d.outputIndex < byteLen cumulativeOutput then
      some (tailBytes cumulativeOutput d.outputIndex)
    else none
  return (lastChunk, cumulativeOutput)

end DecodeStream

/-! ### A generation -/

inductive Op (ι : Type) where
  | pushToken (tokenId : ι)
  | nextChunk

def Op.tokenIds {ι : Type} : Op ι → List ι
  | .pushToken tokenId => [tokenId]
  | .nextChunk => []

variable {ι ε : Type}

def runOps (t : Tokenizer ι ε) (d : DecodeStream ι) (streamed : List Char) :
    List (Op ι) → Except ε (DecodeStream ι × List Char)
  | [] => .ok (d, streamed)
  | .pushToken tokenId :: ops => do
    let (d, _) ← d.pushToken t tokenId
    runOps t d streamed ops
  | .nextChunk :: ops => runOps t d.nextChunk.1 (streamed ++ d.nextChunk.2.getD []) ops

def generateFrom (t : Tokenizer ι ε) (d : DecodeStream ι) (streamed : List Char)
    (ops : List (Op ι)) : Except ε (List Char × List Char) := do
  let (d, streamed) ← runOps t d streamed ops
  let (lastChunk, fullText) ← d.flush t
  return (streamed ++ lastChunk.getD [], fullText)

def generate (t : Tokenizer ι ε) (promptTokenIds : List ι) (skipSpecialTokens : Bool)
    (minBytesToBuffer : ℕ) (ops : List (Op ι)) : Except ε (List Char × List Char) :=
  generateFrom t (.new promptTokenIds skipSpecialTokens minBytesToBuffer) [] ops

/-- A tokenizer that decodes the bytes of its tokens; a skipped special token has none. -/
def byteTokenizer (tokenBytes : Bool → ι → List UInt8) (idToToken : ι → Option (List Char)) :
    Tokenizer ι ε where
  decode ids skipSpecialTokens := .ok (lossy (ids.flatMap (tokenBytes skipSpecialTokens)))
  idToToken := idToToken

/-! ### The chunks -/

def Streams (d : DecodeStream ι) (streamed : List Char) : Prop :=
  ∃ rest, d.cumulativeOutput = streamed ++ rest ∧ d.outputIndex = byteLen streamed

variable {d : DecodeStream ι} {streamed : List Char}

/-- A chunk continues what was given out before. -/
theorem Streams.nextChunk (h : Streams d streamed) :
    Streams d.nextChunk.1 (streamed ++ d.nextChunk.2.getD []) := by
  obtain ⟨rest, htext, hindex⟩ := h
  unfold DecodeStream.nextChunk
  dsimp only
  generalize hn : byteLen d.cumulativeOutput - d.minBytesToBuffer = n
  split_ifs with hlt
  · have hhead := headBytes_prefix d.cumulativeOutput n
    rw [hindex] at hlt
    obtain ⟨chunk, hchunk⟩ := exists_eq_append_of_byteLen_lt ⟨rest, htext.symm⟩ hhead hlt
    obtain ⟨more, hmore⟩ := hhead
    have hcutoff : headBytes d.cumulativeOutput (floorCharBoundary d.cumulativeOutput n) =
        streamed ++ chunk := by
      unfold floorCharBoundary
      nth_rewrite 1 [← hmore]
      rw [headBytes_append, hchunk]
    refine ⟨more, ?_, ?_⟩
    · rw [hcutoff, hindex, tailBytes_append, Option.getD_some, ← hchunk, hmore]
    · rw [hcutoff, hindex, tailBytes_append, Option.getD_some, ← hchunk]
      rfl
  · exact ⟨rest, by simpa using htext, by simpa using hindex⟩

/-- The decoder goes on: its output grows, what was given out stays. -/
structure Continues (d d' : DecodeStream ι) : Prop where
  skipSpecialTokens : d'.skipSpecialTokens = d.skipSpecialTokens
  prefixSeeded : d'.prefixSeeded = d.prefixSeeded
  outputIndex : d'.outputIndex = d.outputIndex
  cumulativeOutput : d.cumulativeOutput <+: d'.cumulativeOutput

theorem Streams.continues {d' : DecodeStream ι} (h : Streams d streamed) (hd : Continues d d') :
    Streams d' streamed := by
  obtain ⟨rest, htext, hindex⟩ := h
  obtain ⟨more, hmore⟩ := hd.cumulativeOutput
  refine ⟨rest ++ more, ?_, hd.outputIndex.trans hindex⟩
  rw [← hmore, htext, append_assoc]

/-! ### The window -/

variable (tokenBytes : Bool → ι → List UInt8) (idToToken : ι → Option (List Char))

def bytesOf (skipSpecialTokens : Bool) (ids : List ι) : List UInt8 :=
  ids.flatMap (tokenBytes skipSpecialTokens)

/-- The window of the decoder: `context` decodes to the prefix text, what was `emitted` and the
rest of the window are the bytes the output is made of, and no character is cut between them. -/
structure Window (d : DecodeStream ι) (context rest : List ι) (emitted : List UInt8) : Prop where
  ids : d.ids = context ++ rest
  prefixIndex : d.prefixIndex = context.length
  prefixText : d.prefixText = lossy (bytesOf tokenBytes d.skipSpecialTokens context)
  context_done : unfinished (bytesOf tokenBytes d.skipSpecialTokens context) = []
  cumulativeOutput : d.cumulativeOutput = lossy emitted
  emitted_done : unfinished emitted = []

variable {tokenBytes idToToken} {context rest : List ι} {emitted : List UInt8}

theorem bytesOf_append (skip : Bool) (ids more : List ι) : bytesOf tokenBytes skip (ids ++ more) =
      bytesOf tokenBytes skip ids ++ bytesOf tokenBytes skip more :=
  flatMap_append

theorem decode_byteTokenizer (ids : List ι) (skip : Bool) :
    (byteTokenizer tokenBytes idToToken : Tokenizer ι ε).decode ids skip =
      .ok (lossy (bytesOf tokenBytes skip ids)) := rfl

/-- Decoding the window gives the prefix text and then what the rest decodes to. -/
theorem Window.lossy_ids (h : Window tokenBytes d context rest emitted) (more : List ι) :
    lossy (bytesOf tokenBytes d.skipSpecialTokens (d.ids ++ more)) =
      d.prefixText ++ lossy (bytesOf tokenBytes d.skipSpecialTokens (rest ++ more)) := by
  rw [h.ids, h.prefixText, append_assoc, bytesOf_append,
    lossy_append_of_unfinished h.context_done]

variable (idToToken)

/-- A token is put off or all of the window is given out. -/
theorem Window.pushSeeded (h : Window tokenBytes d context rest emitted) (tokenId : ι) :
    ∃ d' n context' rest' emitted',
      d.pushSeeded (byteTokenizer tokenBytes idToToken : Tokenizer ι ε) tokenId = .ok (d', n) ∧
      Continues d d' ∧ Window tokenBytes d' context' rest' emitted' ∧
      emitted' ++ bytesOf tokenBytes d.skipSpecialTokens rest' =
        emitted ++ bytesOf tokenBytes d.skipSpecialTokens (rest ++ [tokenId]) := by
  have hstring := h.lossy_ids [tokenId]
  by_cases hwait : byteLen (lossy (bytesOf tokenBytes d.skipSpecialTokens (d.ids ++ [tokenId]))) ≤
      byteLen d.prefixText ∨
      (lossy (bytesOf tokenBytes d.skipSpecialTokens (d.ids ++ [tokenId]))).getLast? =
        some replacement
  · refine ⟨{ d with ids := d.ids ++ [tokenId] }, 0, context, rest ++ [tokenId], emitted, ?_,
      ⟨rfl, rfl, rfl, prefix_refl _⟩, ?_, rfl⟩
    · simp only [DecodeStream.pushSeeded, decode_byteTokenizer]
      exact if_pos hwait
    · exact { h with ids := by rw [h.ids, append_assoc] }
  · -- the text ends in a complete character: the whole rest of the window is given out
    generalize htext : lossy (bytesOf tokenBytes d.skipSpecialTokens (rest ++ [tokenId])) = text
      at hstring
    have hdrop : (d.ids ++ [tokenId]).drop d.prefixIndex = rest ++ [tokenId] := by
      rw [h.ids, h.prefixIndex, append_assoc, drop_left]
    have hdone : unfinished (bytesOf tokenBytes d.skipSpecialTokens (rest ++ [tokenId])) = [] := by
      by_contra hunfinished
      have hlast := getLast_lossy_of_unfinished hunfinished
      apply hwait
      right
      rw [hstring, ← htext, getLast?_append, hlast]
      rfl
    refine ⟨{ d with
        ids := rest ++ [tokenId], prefixText := text, prefixIndex := (rest ++ [tokenId]).length
        cumulativeOutput := d.cumulativeOutput ++ text },
      byteLen text, rest ++ [tokenId], [],
      emitted ++ bytesOf tokenBytes d.skipSpecialTokens (rest ++ [tokenId]),
      ?_, ⟨rfl, rfl, rfl, prefix_append _ _⟩, ?_, by simp [bytesOf]⟩
    · simp only [DecodeStream.pushSeeded, decode_byteTokenizer]
      rw [hstring] at hwait
      refine (if_neg (by rwa [hstring])).trans ?_
      simp only [hdrop, hstring, tailBytes_append, htext]
      rfl
    · constructor
      · simp
      · rfl
      · exact htext.symm
      · exact hdone
      · dsimp only
        rw [lossy_append_of_unfinished h.emitted_done, h.cumulativeOutput, htext]
      · rw [unfinished_append, h.emitted_done]
        exact hdone

/-! ### The first window -/

theorem decodePromptContext_byteTokenizer (ids : List ι) :
    d.decodePromptContext (byteTokenizer tokenBytes idToToken : Tokenizer ι ε) ids =
      .ok (lossy (bytesOf tokenBytes d.skipSpecialTokens ids), ids) := rfl

/-- The suffix decodes without a replacement character and is long enough. -/
def Clean (tokenBytes : Bool → ι → List UInt8) (skip : Bool) (suffix : List ι) : Prop :=
  replacement ∉ lossy (bytesOf tokenBytes skip suffix) ∧ safeSuffixMin ≤ suffix.length

def seeded (tokenBytes : Bool → ι → List UInt8) (d : DecodeStream ι) (ids : List ι) :
    DecodeStream ι :=
  { d with
    prefixText := lossy (bytesOf tokenBytes d.skipSpecialTokens ids), ids := ids
    prefixIndex := ids.length }

theorem window_seeded (houtput : d.cumulativeOutput = []) {ids : List ι}
    (hdone : unfinished (bytesOf tokenBytes d.skipSpecialTokens ids) = []) :
    Window tokenBytes (seeded tokenBytes d ids) ids [] [] :=
  ⟨(append_nil ids).symm, rfl, rfl, hdone, houtput, rfl⟩

theorem continues_seeded (ids : List ι) : Continues d (seeded tokenBytes d ids) :=
  ⟨rfl, rfl, rfl, prefix_refl _⟩

/-- The window is seeded from the first clean suffix, if there is one. -/
theorem seedFromSuffix_spec (tokenBytes : Bool → ι → List UInt8) (d : DecodeStream ι)
    (lens : List ℕ) :
    (∃ n ∈ lens, Clean tokenBytes d.skipSpecialTokens (d.ids.drop (d.ids.length - n)) ∧
      d.seedFromSuffix (byteTokenizer tokenBytes idToToken : Tokenizer ι ε) lens =
        .ok (some (seeded tokenBytes d (d.ids.drop (d.ids.length - n))))) ∨
    (d.seedFromSuffix (byteTokenizer tokenBytes idToToken : Tokenizer ι ε) lens = .ok none ∧
      ∀ n ∈ lens, ¬ Clean tokenBytes d.skipSpecialTokens (d.ids.drop (d.ids.length - n))) := by
  induction lens with
  | nil => exact .inr ⟨rfl, by simp⟩
  | cons n lens ih =>
    simp only [DecodeStream.seedFromSuffix, decodePromptContext_byteTokenizer]
    by_cases hclean : Clean tokenBytes d.skipSpecialTokens (d.ids.drop (d.ids.length - n))
    · left
      exact ⟨n, mem_cons_self, hclean, if_pos hclean⟩
    · have hnext : ∀ {x y : Except ε (Option (DecodeStream ι))}, (if replacement ∉ lossy (bytesOf
          tokenBytes d.skipSpecialTokens (d.ids.drop (d.ids.length - n))) ∧
          safeSuffixMin ≤ (d.ids.drop (d.ids.length - n)).length then x else y) = y :=
        if_neg hclean
      rcases ih with ⟨m, hm, hcleanm, hseed⟩ | ⟨hseed, hnone⟩
      · left
        exact ⟨m, mem_cons_of_mem _ hm, hcleanm, hnext.trans hseed⟩
      · right
        refine ⟨hnext.trans hseed, ?_⟩
        intro m hm
        rcases mem_cons.mp hm with rfl | hm
        · exact hclean
        · exact hnone m hm

/-- The prompt's bytes that come out again with the generated ones: all of them, when the text
ends in a replacement character and its last four tokens have bytes. -/
def leaked (tokenBytes : Bool → ι → List UInt8) (skip : Bool) (prompt : List ι) : List UInt8 :=
  if (lossy (bytesOf tokenBytes skip prompt)).getLast? = some replacement ∧
      ¬ (safeSuffixMin < prompt.length ∧
        bytesOf tokenBytes skip (prompt.drop (prompt.length - safeSuffixMin)) = []) then
    bytesOf tokenBytes skip prompt
  else []

theorem mem_suffixLens {n promptLen : ℕ} (h : n ∈ suffixLens promptLen) :
    safeSuffixMin < promptLen ∧ safeSuffixMin ≤ n ∧ n < promptLen := by
  unfold suffixLens at h
  split_ifs at h with hlong
  · rw [mem_range'_1] at h
    unfold safeSuffixMin safeSuffixMax at *
    omega
  · cases h

theorem safeSuffixMin_mem_suffixLens {promptLen : ℕ} (h : safeSuffixMin < promptLen) :
    safeSuffixMin ∈ suffixLens promptLen := by
  unfold suffixLens
  rw [if_pos h, mem_range'_1]
  unfold safeSuffixMin safeSuffixMax at *
  omega

/-- After a clean suffix nothing leaks: its last character is the prompt's, or it has no bytes. -/
theorem leaked_of_clean {prompt : List ι} {skip : Bool} {n : ℕ} (hn : n ∈ suffixLens prompt.length)
    (hclean : Clean tokenBytes skip (prompt.drop (prompt.length - n))) :
    leaked tokenBytes skip prompt = [] := by
  obtain ⟨hlong, hmin, hlt⟩ := mem_suffixLens hn
  unfold leaked
  rw [if_neg]
  intro h
  obtain ⟨hlast, hbytes⟩ := h
  by_cases hempty : bytesOf tokenBytes skip (prompt.drop (prompt.length - n)) = []
  · apply hbytes
    refine ⟨hlong, ?_⟩
    have hsplit : prompt.drop (prompt.length - safeSuffixMin) =
        (prompt.drop (prompt.length - n)).drop (n - safeSuffixMin) := by
      rw [drop_drop]
      congr 1
      omega
    rw [hsplit]
    unfold bytesOf at hempty ⊢
    rw [flatMap_eq_nil_iff] at hempty ⊢
    intro id hid
    exact hempty id (mem_of_mem_drop hid)
  · apply (append_of_clean (bytesOf tokenBytes skip (prompt.take (prompt.length - n))) hempty
      hclean.1).2
    rwa [← bytesOf_append, take_append_drop]

/-- The first window gives out nothing of the prompt or all of it. -/
theorem seedPrefix_spec (tokenBytes : Bool → ι → List UInt8) (hindex : d.prefixIndex = 0)
    (htext : d.prefixText = []) (houtput : d.cumulativeOutput = []) :
    ∃ d' context rest, d.seedPrefix (byteTokenizer tokenBytes idToToken : Tokenizer ι ε) = .ok d' ∧
      Continues d d' ∧ Window tokenBytes d' context rest [] ∧
      bytesOf tokenBytes d.skipSpecialTokens rest =
        leaked tokenBytes d.skipSpecialTokens d.ids := by
  rcases seedFromSuffix_spec (ε := ε) idToToken tokenBytes d (suffixLens d.ids.length) with
    ⟨n, hn, hclean, hseed⟩ | ⟨hseed, hnone⟩
  · refine ⟨seeded tokenBytes d (d.ids.drop (d.ids.length - n)), d.ids.drop (d.ids.length - n), [],
      ?_, continues_seeded _, window_seeded houtput (unfinished_of_clean hclean.1),
      (leaked_of_clean hn hclean).symm⟩
    rw [DecodeStream.seedPrefix, hseed]
    rfl
  · have hfour : ¬ (safeSuffixMin < d.ids.length ∧ bytesOf tokenBytes d.skipSpecialTokens
        (d.ids.drop (d.ids.length - safeSuffixMin)) = []) := by
      intro h
      obtain ⟨hlong, hempty⟩ := h
      apply hnone safeSuffixMin (safeSuffixMin_mem_suffixLens hlong)
      refine ⟨by rw [hempty]; exact not_mem_nil, ?_⟩
      rw [length_drop]
      omega
    by_cases hlast : (lossy (bytesOf tokenBytes d.skipSpecialTokens d.ids)).getLast? =
        some replacement
    · refine ⟨d, [], d.ids, ?_, ⟨rfl, rfl, rfl, prefix_refl _⟩, ?_, ?_⟩
      · rw [DecodeStream.seedPrefix, hseed]
        exact if_pos hlast
      · exact ⟨rfl, hindex, htext, rfl, houtput, rfl⟩
      · rw [leaked, if_pos ⟨hlast, hfour⟩]
    · refine ⟨seeded tokenBytes d d.ids, d.ids, [], ?_, continues_seeded _, ?_, ?_⟩
      · rw [DecodeStream.seedPrefix, hseed]
        exact if_neg hlast
      · apply window_seeded houtput
        by_contra hunfinished
        exact hlast (getLast_lossy_of_unfinished hunfinished)
      · rw [leaked, if_neg fun h => hlast h.1]
        rfl

/-! ### A whole generation -/

/-- What a decoder that has been seeded gives out in the end. -/
structure Decoding (tokenBytes : Bool → ι → List UInt8) (d : DecodeStream ι) (target : List UInt8) :
    Prop where
  window : ∃ context rest emitted, Window tokenBytes d context rest emitted ∧
    emitted ++ bytesOf tokenBytes d.skipSpecialTokens rest = target
  prefixSeeded : d.prefixSeeded = true

variable {target : List UInt8}

section
variable (h : Decoding tokenBytes d target)
include h

/-- A token of a seeded decoder adds its bytes to what is decoded in the end. -/
theorem Decoding.pushSeeded (tokenId : ι) :
    ∃ d' n, d.pushSeeded (byteTokenizer tokenBytes idToToken : Tokenizer ι ε) tokenId =
      .ok (d', n) ∧ Continues d d' ∧
      Decoding tokenBytes d' (target ++ tokenBytes d.skipSpecialTokens tokenId) := by
  obtain ⟨context, rest, emitted, hwindow, htarget⟩ := h.window
  obtain ⟨d', n, context', rest', emitted', hpush, hcontinues, hwindow', hbytes⟩ :=
    hwindow.pushSeeded idToToken tokenId
  refine ⟨d', n, hpush, hcontinues, ⟨context', rest', emitted', hwindow', ?_⟩,
    hcontinues.prefixSeeded.trans h.prefixSeeded⟩
  rw [hcontinues.skipSpecialTokens, hbytes, bytesOf_append, ← append_assoc, htarget]
  simp [bytesOf]

theorem Decoding.pushToken (tokenId : ι) :
    ∃ d' n, d.pushToken (byteTokenizer tokenBytes idToToken : Tokenizer ι ε) tokenId =
      .ok (d', n) ∧ Continues d d' ∧
      Decoding tokenBytes d' (target ++ tokenBytes d.skipSpecialTokens tokenId) := by
  have hseeded : d.pushToken (byteTokenizer tokenBytes idToToken : Tokenizer ι ε) tokenId =
      d.pushSeeded (byteTokenizer tokenBytes idToToken) tokenId :=
    if_neg (by simp [h.prefixSeeded])
  rw [hseeded]
  exact h.pushSeeded idToToken tokenId

theorem Decoding.nextChunk : Decoding tokenBytes d.nextChunk.1 target := by
  obtain ⟨⟨context, rest, emitted, hwindow, htarget⟩, hseeded⟩ := h
  unfold DecodeStream.nextChunk
  dsimp only
  split_ifs
  · exact ⟨⟨context, rest, emitted, { hwindow with }, htarget⟩, hseeded⟩
  · exact ⟨⟨context, rest, emitted, hwindow, htarget⟩, hseeded⟩

omit h in
theorem nextChunk_skipSpecialTokens : d.nextChunk.1.skipSpecialTokens = d.skipSpecialTokens := by
  unfold DecodeStream.nextChunk
  dsimp only
  split_ifs <;> rfl

/-- However the operations are mixed, the chunks are a beginning of the output. -/
theorem Decoding.runOps (hstreams : Streams d streamed) (ops : List (Op ι)) :
    ∃ d' streamed', runOps (byteTokenizer tokenBytes idToToken : Tokenizer ι ε) d streamed ops =
      .ok (d', streamed') ∧ Streams d' streamed' ∧ Decoding tokenBytes d'
        (target ++ bytesOf tokenBytes d.skipSpecialTokens (ops.flatMap Op.tokenIds)) := by
  induction ops generalizing d streamed target with
  | nil => exact ⟨d, streamed, rfl, hstreams, by simpa [bytesOf] using h⟩
  | cons op ops ih =>
    cases op with
    | nextChunk =>
      have hrest := ih h.nextChunk hstreams.nextChunk
      rwa [nextChunk_skipSpecialTokens] at hrest
    | pushToken tokenId =>
      obtain ⟨d₁, n, hpush, hcontinues, hnext⟩ := h.pushToken idToToken tokenId
      obtain ⟨d', streamed', hrun, hstreams', hdecoding⟩ := ih hnext (hstreams.continues hcontinues)
      refine ⟨d', streamed', ?_, hstreams', ?_⟩
      · rw [Incremental.runOps, hpush]
        exact hrun
      · rw [hcontinues.skipSpecialTokens, append_assoc] at hdecoding
        exact hdecoding

omit h in
theorem append_lastChunk {text more : List Char} {index : ℕ} (htext : text = streamed ++ more)
    (hindex : index = byteLen streamed) :
    streamed ++ (if index < byteLen text then some (tailBytes text index) else none).getD [] =
      text := by
  subst htext hindex
  split_ifs with hlt
  · rw [Option.getD_some, tailBytes_append]
  · rw [byteLen_append] at hlt
    rw [byteLen_eq_zero (show byteLen more = 0 by omega)]
    rfl

/-- The last chunk completes what was given out to the whole text. -/
theorem Decoding.flush (hstreams : Streams d streamed) :
    ∃ lastChunk, d.flush (byteTokenizer tokenBytes idToToken : Tokenizer ι ε) =
      .ok (lastChunk, lossy target) ∧ streamed ++ lastChunk.getD [] = lossy target := by
  obtain ⟨⟨context, rest, emitted, hwindow, htarget⟩, hseeded⟩ := h
  obtain ⟨more, hmore, hindex⟩ := hstreams
  have htext : lossy target = d.cumulativeOutput ++
      lossy (bytesOf tokenBytes d.skipSpecialTokens rest) := by
    rw [← htarget, lossy_append_of_unfinished hwindow.emitted_done, hwindow.cumulativeOutput]
  refine ⟨if d.outputIndex < byteLen (lossy target) then
    some (tailBytes (lossy target) d.outputIndex) else none, ?_,
    append_lastChunk (by rw [htext, hmore, append_assoc]) hindex⟩
  unfold DecodeStream.flush
  by_cases hids : d.ids.isEmpty = false
  · have hstring := hwindow.lossy_ids []
    rw [append_nil, append_nil] at hstring
    rw [if_pos ⟨hseeded, hids⟩, decode_byteTokenizer, hstring, htext]
    dsimp only [bind, Except.bind, pure, Except.pure]
    rw [tailBytes_append]
  · rw [if_neg fun hcond => hids hcond.2]
    have hrest : rest = [] := by
      rw [Bool.not_eq_false, List.isEmpty_iff, hwindow.ids, List.append_eq_nil_iff] at hids
      exact hids.2
    rw [htext, hrest]
    simp [bytesOf]
    rfl
end

/-- The first token seeds the decoder from the prompt. -/
theorem pushToken_new (tokenBytes : Bool → ι → List UInt8) {prompt : List ι}
    (hprompt : prompt ≠ []) (skip : Bool) (minBytes : ℕ) (tokenId : ι) :
    ∃ d' n, (DecodeStream.new prompt skip minBytes).pushToken
        (byteTokenizer tokenBytes idToToken : Tokenizer ι ε) tokenId = .ok (d', n) ∧
      Streams d' [] ∧ d'.skipSpecialTokens = skip ∧
      Decoding tokenBytes d' (leaked tokenBytes skip prompt ++ tokenBytes skip tokenId) := by
  obtain ⟨d₁, context, rest, hseed, hcontinues, hwindow, hleaked⟩ :=
    seedPrefix_spec (ε := ε) idToToken tokenBytes (d := .new prompt skip minBytes) rfl rfl rfl
  have hskip : d₁.skipSpecialTokens = skip := hcontinues.skipSpecialTokens
  have hdecoding : Decoding tokenBytes { d₁ with prefixSeeded := true }
      (leaked tokenBytes skip prompt) := by
    refine ⟨⟨context, rest, [], { hwindow with }, ?_⟩, rfl⟩
    rw [nil_append]
    exact (congrArg (bytesOf tokenBytes · rest) hskip).trans hleaked
  obtain ⟨d', n, hpush, hcontinues', hdecoding'⟩ := hdecoding.pushSeeded (ε := ε) idToToken tokenId
  refine ⟨d', n, ?_, ?_, hcontinues'.skipSpecialTokens.trans hskip, ?_⟩
  · have hcond : (DecodeStream.new prompt skip minBytes).prefixSeeded = false ∧
        (DecodeStream.new prompt skip minBytes).ids.isEmpty = false := by
      simp [DecodeStream.new, hprompt]
    rw [DecodeStream.pushToken, if_pos hcond, hseed]
    exact hpush
  · have hstart : Streams (DecodeStream.new prompt skip minBytes) [] := ⟨[], rfl, rfl⟩
    have hseeded : Streams d₁ [] := hstart.continues hcontinues
    exact Streams.continues (d := { d₁ with prefixSeeded := true }) hseeded hcontinues'
  · exact hskip ▸ hdecoding'

/-- The text of a generation. Without a token nothing is given out. -/
def emittedText (tokenBytes : Bool → ι → List UInt8) (skip : Bool) (prompt generated : List ι) :
    List Char :=
  if generated = [] then []
  else lossy (leaked tokenBytes skip prompt ++ bytesOf tokenBytes skip generated)

theorem Decoding.generateFrom (h : Decoding tokenBytes d target) (hstreams : Streams d streamed)
    (ops : List (Op ι)) :
    generateFrom (byteTokenizer tokenBytes idToToken : Tokenizer ι ε) d streamed ops = .ok
      (lossy (target ++ bytesOf tokenBytes d.skipSpecialTokens (ops.flatMap Op.tokenIds)),
        lossy (target ++ bytesOf tokenBytes d.skipSpecialTokens (ops.flatMap Op.tokenIds))) := by
  obtain ⟨d', streamed', hrun, hstreams', hdecoding⟩ := h.runOps (ε := ε) idToToken hstreams ops
  obtain ⟨lastChunk, hflush, hlast⟩ := hdecoding.flush (ε := ε) idToToken hstreams'
  rw [Incremental.generateFrom, hrun]
  dsimp only [bind, Except.bind]
  rw [hflush]
  dsimp only
  rw [hlast]
  rfl

variable (skip : Bool) (prompt generated : List ι)

theorem decoding_new (minBytes : ℕ) :
    Decoding tokenBytes (DecodeStream.new [] skip minBytes : DecodeStream ι) [] :=
  ⟨⟨[], [], [], ⟨rfl, rfl, rfl, rfl, rfl, rfl⟩, rfl⟩, rfl⟩

/-- A generation never fails; its chunks join to the full text. -/
theorem generate_eq (prompt : List ι) (skip : Bool) (minBytes : ℕ) (ops : List (Op ι)) :
    generate (byteTokenizer tokenBytes idToToken : Tokenizer ι ε) prompt skip minBytes ops =
      .ok (emittedText tokenBytes skip prompt (ops.flatMap Op.tokenIds),
        emittedText tokenBytes skip prompt (ops.flatMap Op.tokenIds)) := by
  unfold generate
  by_cases hprompt : prompt = []
  · subst hprompt
    have hstart : Streams (DecodeStream.new ([] : List ι) skip minBytes) [] := ⟨[], rfl, rfl⟩
    rw [(decoding_new skip minBytes).generateFrom idToToken hstart ops]
    have htext : emittedText tokenBytes skip [] (ops.flatMap Op.tokenIds) =
        lossy (bytesOf tokenBytes skip (ops.flatMap Op.tokenIds)) := by
      unfold emittedText
      split_ifs with hnone
      · rw [hnone]
        rfl
      · rfl
    rw [htext]
    rfl
  · induction ops with
    | nil =>
      have hflush : (DecodeStream.new prompt skip minBytes).flush
          (byteTokenizer tokenBytes idToToken : Tokenizer ι ε) = .ok (none, []) := by
        rw [DecodeStream.flush, if_neg (by simp [DecodeStream.new, hprompt])]
        rfl
      rw [generateFrom, runOps]
      dsimp only [bind, Except.bind]
      rw [hflush]
      rfl
    | cons op ops ih =>
      cases op with
      | nextChunk => exact ih
      | pushToken tokenId =>
        obtain ⟨d', n, hpush, hstreams, hskip, hdecoding⟩ :=
          pushToken_new (ε := ε) idToToken tokenBytes hprompt skip minBytes tokenId
        have hrest := hdecoding.generateFrom (ε := ε) idToToken hstreams ops
        have htext : emittedText tokenBytes skip prompt
            ((Op.pushToken tokenId :: ops).flatMap Op.tokenIds) =
            lossy (leaked tokenBytes skip prompt ++ tokenBytes skip tokenId ++
              bytesOf tokenBytes skip (ops.flatMap Op.tokenIds)) := by
          rw [emittedText, if_neg (by simp [Op.tokenIds])]
          simp [Op.tokenIds, bytesOf]
        rw [hskip] at hrest
        rw [htext, ← hrest]
        unfold generateFrom
        rw [runOps, hpush]
        rfl

/-- The generated text: what the bytes of prompt and generation decode to without the complete
characters of the prompt. -/
def generatedText (tokenBytes : Bool → ι → List UInt8) (skip : Bool) (prompt generated : List ι) :
    List Char :=
  (lossy (bytesOf tokenBytes skip prompt ++ bytesOf tokenBytes skip generated)).drop
    (lossy (complete (bytesOf tokenBytes skip prompt))).length

theorem generatedText_eq : generatedText tokenBytes skip prompt generated =
      lossy (unfinished (bytesOf tokenBytes skip prompt) ++ bytesOf tokenBytes skip generated) := by
  rw [generatedText, (eq_complete_append_unfinished _).2, lossy_append, drop_left,
    lossyFrom_unfinished]

/-- When the first window shows the decoder where the generated text begins. -/
def Shows (tokenBytes : Bool → ι → List UInt8) (skip : Bool) (prompt generated : List ι) : Prop :=
  (lossy (bytesOf tokenBytes skip prompt)).getLast? ≠ some replacement ∨
    if generated = [] then unfinished (bytesOf tokenBytes skip prompt) = []
    else if safeSuffixMin < prompt.length ∧
        bytesOf tokenBytes skip (prompt.drop (prompt.length - safeSuffixMin)) = [] then
      lossy (unfinished (bytesOf tokenBytes skip prompt) ++ bytesOf tokenBytes skip generated) =
        lossy (bytesOf tokenBytes skip generated)
    else complete (bytesOf tokenBytes skip prompt) = []

/-- The generated text comes out exactly when the first window shows where it begins. -/
theorem emittedText_eq_iff :
    emittedText tokenBytes skip prompt generated = generatedText tokenBytes skip prompt generated ↔
      Shows tokenBytes skip prompt generated := by
  rw [generatedText_eq]
  unfold Shows
  by_cases hlast : (lossy (bytesOf tokenBytes skip prompt)).getLast? = some replacement
  · rw [or_iff_right (not_not.mpr hlast), emittedText]
    by_cases hnone : generated = []
    · rw [if_pos hnone, if_pos hnone, hnone, eq_comm, lossy_eq_nil_iff]
      simp [bytesOf]
    rw [if_neg hnone, if_neg hnone, leaked]
    by_cases hempty : safeSuffixMin < prompt.length ∧
        bytesOf tokenBytes skip (prompt.drop (prompt.length - safeSuffixMin)) = []
    · rw [if_pos hempty, if_neg fun h => h.2 hempty, nil_append, eq_comm]
    · -- the whole prompt comes out
      rw [if_neg hempty, if_pos ⟨hlast, hempty⟩, lossy_append, lossyFrom_unfinished,
        append_left_eq_self, ← (eq_complete_append_unfinished _).2, lossy_eq_nil_iff]
  · have hdone : unfinished (bytesOf tokenBytes skip prompt) = [] := by
      by_contra hunfinished
      exact hlast (getLast_lossy_of_unfinished hunfinished)
    have hleaked : leaked tokenBytes skip prompt = [] := by
      rw [leaked, if_neg fun h => hlast h.1]
    refine iff_of_true ?_ (.inl hlast)
    rw [hdone, emittedText, hleaked]
    split_ifs with hnone
    · rw [hnone]
      rfl
    · rfl

/-- The chunks join to the full text, and the full text is the generated text exactly when the
first window shows where it begins. -/
theorem generate_text_iff (tokenBytes : Bool → ι → List UInt8) (prompt : List ι) (skip : Bool)
    (minBytes : ℕ) (ops : List (Op ι)) :
    (∃ streamed fullText,
      generate (byteTokenizer tokenBytes idToToken : Tokenizer ι ε) prompt skip minBytes ops =
        .ok (streamed, fullText) ∧ streamed = fullText ∧
      fullText = generatedText tokenBytes skip prompt (ops.flatMap Op.tokenIds)) ↔
      Shows tokenBytes skip prompt (ops.flatMap Op.tokenIds) := by
  rw [generate_eq, ← emittedText_eq_iff]
  constructor
  · intro h
    obtain ⟨streamed, fullText, hok, hstreamed, htext⟩ := h
    cases hok
    exact htext
  · intro h
    exact ⟨_, _, rfl, rfl, h⟩

/-- A prompt `h` with two of the three bytes of a character, and the third byte generated: the
`h` comes out again. -/
theorem generate_text_cutPrompt :
    generate (byteTokenizer (fun _ b => [b]) fun _ => none : Tokenizer UInt8 Unit)
      [0x68, 0xE4, 0xBD] false 0 [.pushToken 0xA0] = .ok ("h你".toList, "h你".toList) ∧
    generatedText (fun _ b => [b]) false [0x68, 0xE4, 0xBD] [0xA0] = "你".toList := by
  decide

end Vllm.Incremental
