import Vllm.MarkerSearch
import Mathlib.Data.List.MinMax

/-!
The incremental detokenizer and its stop strings. A batch of tokens is decoded, the
text is searched for a stop string that ends in the new part, and it is cut there.
However the tokens are grouped into batches, the first stop string to be completed
wins; what was streamed before is never cut, because enough text is held back.
-/
namespace Vllm.Detokenizer

open MarkerSearch List

/-! ### Stop strings in a text -/

/-- `str.find(sub, start)`, where a negative start counts from the end. -/
def pyFind (text sub : List Char) (start : ℤ) : Option ℕ :=
  let start := (if start < 0 then text.length + start else start).toNat
  (find sub (text.drop start)).map (start + ·)

structure StopMatch where
  stopStr : List Char
  index : ℕ
  deriving DecidableEq, Repr

def StopMatch.stopEnd (m : StopMatch) : ℕ := m.index + m.stopStr.length

def StopMatch.kept (m : StopMatch) (includeInOutput : Bool) : ℕ :=
  if includeInOutput then m.stopEnd else m.index

theorem StopMatch.kept_le_stopEnd (m : StopMatch) (includeInOutput : Bool) :
    m.kept includeInOutput ≤ m.stopEnd := by
  unfold kept
  split_ifs
  · exact le_refl _
  · exact Nat.le_add_right _ _

/-- The stop string that ends first is preferred, of two with one end the earlier in the list. -/
def preferStop (best : Option StopMatch) (stopStr : List Char) : Option ℕ → Option StopMatch
  | none => best
  | some stopIndex =>
    if ∀ b ∈ best, stopIndex + stopStr.length < b.stopEnd then some ⟨stopStr, stopIndex⟩ else best

def improveStop (outputText : List Char) (newCharCount : ℕ) (best : Option StopMatch)
    (stopStr : List Char) : Option StopMatch :=
  preferStop best stopStr (pyFind outputText stopStr (1 - newCharCount - stopStr.length))

def checkStopStrings (outputText : List Char) (newCharCount : ℕ) (stop : List (List Char))
    (includeInOutput : Bool) : Option (List Char × ℤ) :=
  if newCharCount = 0 ∨ stop = [] then none
  else
    match stop.foldl (improveStop outputText newCharCount) none with
    | none => none
    | some best =>
      if includeInOutput then
        if outputText.length ≤ best.stopEnd then some (best.stopStr, -1)
        else some (best.stopStr, best.stopEnd)
      else some (best.stopStr, best.index)

section
variable {text more : List Char} {stopStr : List Char} {offset i : ℕ}

def findAfter (text : List Char) (offset : ℕ) (stopStr : List Char) : Option ℕ :=
  (find stopStr (text.drop (offset + 1 - stopStr.length))).map (offset + 1 - stopStr.length + ·)

/-- The start that `check_stop_strings` computes skips exactly the occurrences that ended before. -/
theorem pyFind_eq_findAfter (hoffset : offset < text.length) (hstop : stopStr ≠ []) :
    pyFind text stopStr (1 - (text.length - offset : ℕ) - stopStr.length) =
      findAfter text offset stopStr := by
  have hpos := length_pos_iff.mpr hstop
  have hneg : (1 - (text.length - offset : ℕ) - stopStr.length : ℤ) < 0 := by omega
  have hstart : (text.length + (1 - (text.length - offset : ℕ) - stopStr.length) : ℤ).toNat =
      offset + 1 - stopStr.length := by omega
  unfold pyFind findAfter
  rw [if_pos hneg]
  dsimp only
  rw [hstart]

section
variable (hstop : stopStr ≠ [])
include hstop

theorem findAfter_eq_none_iff : findAfter text offset stopStr = none ↔
      ∀ i, OccursAt stopStr text i → i + stopStr.length ≤ offset := by
  unfold findAfter
  rw [Option.map_eq_none_iff, find_eq_none_iff hstop]
  constructor
  · intro hnone i hocc
    by_contra hlt
    obtain ⟨j, rfl⟩ := Nat.exists_eq_add_of_le (show offset + 1 - stopStr.length ≤ i by omega)
    exact hnone j (occursAt_drop.mpr hocc)
  · intro hle i hocc
    have hend := hle _ (occursAt_drop.mp hocc)
    omega

theorem findAfter_eq_some_iff : findAfter text offset stopStr = some i ↔
      OccursAt stopStr text i ∧ offset < i + stopStr.length ∧
        ∀ j < i, OccursAt stopStr text j → j + stopStr.length ≤ offset := by
  unfold findAfter
  rw [Option.map_eq_some_iff]
  constructor
  · intro h
    obtain ⟨k, hk, rfl⟩ := h
    obtain ⟨hocc, hfirst⟩ := (find_eq_some_iff hstop).mp hk
    refine ⟨occursAt_drop.mp hocc, by omega, ?_⟩
    intro j hj hocc'
    by_contra hlt
    obtain ⟨l, rfl⟩ := Nat.exists_eq_add_of_le (show offset + 1 - stopStr.length ≤ j by omega)
    exact hfirst l (by omega) (occursAt_drop.mpr hocc')
  · intro h
    obtain ⟨hocc, hend, hfirst⟩ := h
    obtain ⟨k, rfl⟩ := Nat.exists_eq_add_of_le (show offset + 1 - stopStr.length ≤ i by omega)
    refine ⟨k, (find_eq_some_iff hstop).mpr ⟨occursAt_drop.mpr hocc, ?_⟩, rfl⟩
    intro j hj hocc'
    have hle := hfirst _ (Nat.add_lt_add_left hj _) (occursAt_drop.mp hocc')
    omega

/-- A stop string that is complete stays the first one when more text arrives. -/
theorem findAfter_append (h : findAfter text offset stopStr = some i) :
    findAfter (text ++ more) offset stopStr = some i := by
  obtain ⟨hocc, hend, hfirst⟩ := (findAfter_eq_some_iff hstop).mp h
  have hle := hocc.add_le hstop
  refine (findAfter_eq_some_iff hstop).mpr ⟨hocc.append hstop more, hend, ?_⟩
  intro j hj hocc'
  exact hfirst j hj (hocc'.of_append (by omega))

/-- Text in which the stop string does not end need not be searched again. -/
theorem findAfter_append_of_none (hoffset : offset ≤ text.length)
    (h : findAfter text offset stopStr = none) :
    findAfter (text ++ more) offset stopStr = findAfter (text ++ more) text.length stopStr := by
  have hnone := (findAfter_eq_none_iff hstop).mp h
  have hiff : ∀ j, OccursAt stopStr (text ++ more) j →
      (j + stopStr.length ≤ offset ↔ j + stopStr.length ≤ text.length) := by
    intro j hocc
    exact ⟨fun hle => hle.trans hoffset, fun hle => hnone j (hocc.of_append hle)⟩
  cases hfind : findAfter (text ++ more) text.length stopStr with
  | none =>
    rw [findAfter_eq_none_iff hstop] at hfind ⊢
    intro j hocc
    exact (hiff j hocc).mpr (hfind j hocc)
  | some i =>
    rw [findAfter_eq_some_iff hstop] at hfind ⊢
    obtain ⟨hocc, hend, hfirst⟩ := hfind
    refine ⟨hocc, lt_of_le_of_lt hoffset hend, ?_⟩
    intro j hj hocc'
    exact (hiff j hocc').mpr (hfirst j hj hocc')
end

def bestStop (text : List Char) (offset : ℕ) (stop : List (List Char)) : Option StopMatch :=
  stop.foldl (fun best stopStr => preferStop best stopStr (findAfter text offset stopStr)) none

variable {stop : List (List Char)} {best best' : Option StopMatch} {m : StopMatch}

/-- The loop finds the stop string that ends first. -/
theorem foldl_improveStop (hstop : ∀ stopStr ∈ stop, stopStr ≠ [])
    (hoffset : offset < text.length) :
    stop.foldl (improveStop text (text.length - offset)) none = bestStop text offset stop := by
  unfold bestStop
  apply foldl_ext
  intro best stopStr hmem
  unfold improveStop
  rw [pyFind_eq_findAfter hoffset (hstop stopStr hmem)]

theorem preferStop_cases (best : Option StopMatch) (stopStr : List Char) (found : Option ℕ) :
    preferStop best stopStr found = best ∨
      ∃ i, found = some i ∧ preferStop best stopStr found = some ⟨stopStr, i⟩ := by
  cases found with
  | none => exact .inl rfl
  | some i =>
    rw [preferStop]
    split_ifs
    · exact .inr ⟨i, rfl, rfl⟩
    · exact .inl rfl

theorem preferStop_eq_none_iff {found : Option ℕ} :
    preferStop best stopStr found = none ↔ best = none ∧ found = none := by
  cases found with
  | none => simp [preferStop]
  | some i =>
    rcases best with _ | b
    · simp [preferStop]
    · by_cases hlt : i + stopStr.length < b.stopEnd <;> simp [preferStop, hlt]

theorem bestStop_eq_none_iff :
    bestStop text offset stop = none ↔ ∀ stopStr ∈ stop, findAfter text offset stopStr = none := by
  have hfold : ∀ best, stop.foldl (fun best stopStr => preferStop best stopStr
      (findAfter text offset stopStr)) best = none ↔
      best = none ∧ ∀ stopStr ∈ stop, findAfter text offset stopStr = none := by
    induction stop with
    | nil => simp
    | cons stopStr stop ih =>
      intro best
      rw [foldl_cons, ih, preferStop_eq_none_iff, forall_mem_cons, and_assoc]
  rw [bestStop, hfold]
  exact and_iff_right rfl

theorem bestStop_spec (hstop : ∀ stopStr ∈ stop, stopStr ≠ [])
    (h : bestStop text offset stop = some m) :
    m.stopStr ∈ stop ∧ offset < m.stopEnd ∧ m.stopEnd ≤ text.length := by
  have hfold : ∀ b ∈ bestStop text offset stop,
      b.stopStr ∈ stop ∧ offset < b.stopEnd ∧ b.stopEnd ≤ text.length := by
    refine List.foldlRecOn (motive := fun best : Option StopMatch => ∀ b ∈ best,
      b.stopStr ∈ stop ∧ offset < b.stopEnd ∧ b.stopEnd ≤ text.length) stop _ ?_ ?_
    · simp
    · intro best hbest stopStr hmem
      rcases preferStop_cases best stopStr (findAfter text offset stopStr) with
        hsame | ⟨i, hfind, hnew⟩
      · rwa [hsame]
      · obtain ⟨hocc, hend, -⟩ := (findAfter_eq_some_iff (hstop stopStr hmem)).mp hfind
        have hle := hocc.add_le (hstop stopStr hmem)
        simp [hnew, StopMatch.stopEnd, hmem, hend, hle]
  exact hfold m h

/-- Two searches agree on what ends by `n`. -/
def AgreeBy (n : ℕ) (best best' : Option StopMatch) : Prop :=
  (∀ b ∈ best, b.stopEnd ≤ n) ∧ (best = best' ∨ best = none ∧ ∀ b ∈ best', n < b.stopEnd)

theorem AgreeBy.prefer {n : ℕ} (h : AgreeBy n best best') (hi : i + stopStr.length ≤ n) :
    AgreeBy n (preferStop best stopStr (some i)) (preferStop best' stopStr (some i)) := by
  obtain ⟨hle, heq | ⟨hnone, hlater⟩⟩ := h
  · subst heq
    refine ⟨?_, .inl rfl⟩
    rcases preferStop_cases best stopStr (some i) with hsame | ⟨j, hj, hnew⟩
    · rwa [hsame]
    · cases hj
      rw [hnew]
      intro b hb
      cases hb
      exact hi
  · -- the first complete stop string goes before all that end later
    have hfirst : preferStop best' stopStr (some i) = some ⟨stopStr, i⟩ := by
      rw [preferStop, if_pos]
      intro b hb
      exact lt_of_le_of_lt hi (hlater b hb)
    rw [hnone, hfirst]
    refine ⟨?_, .inl (by simp [preferStop])⟩
    simpa [preferStop, StopMatch.stopEnd] using hi

theorem AgreeBy.skip {n : ℕ} (h : AgreeBy n best best') {found : Option ℕ}
    (hfound : ∀ i ∈ found, n < i + stopStr.length) :
    AgreeBy n best (preferStop best' stopStr found) := by
  refine ⟨h.1, ?_⟩
  rcases preferStop_cases best' stopStr found with hsame | ⟨i, rfl, hnew⟩
  · rw [hsame]
    exact h.2
  · have hlater := hfound i rfl
    obtain ⟨hle, heq | ⟨hnone, -⟩⟩ := h
    · subst heq
      rcases best with _ | b
      · right
        simpa [preferStop, StopMatch.stopEnd] using hlater
      · left
        have hb := hle b rfl
        simp [preferStop, show ¬ i + stopStr.length < b.stopEnd by omega]
    · right
      refine ⟨hnone, ?_⟩
      rw [hnew]
      intro b hb
      cases hb
      exact hlater

/-- Once a stop string is complete, more text does not change which one is chosen: what it
completes ends later. -/
theorem bestStop_append (hstop : ∀ stopStr ∈ stop, stopStr ≠ [])
    (h : bestStop text offset stop = some m) : bestStop (text ++ more) offset stop = some m := by
  have hagree : AgreeBy text.length (bestStop text offset stop)
      (bestStop (text ++ more) offset stop) := by
    apply foldl_rel
    · exact ⟨by simp, .inl rfl⟩
    · intro stopStr hmem best best' hagree
      cases hfind : findAfter text offset stopStr with
      | some i =>
        rw [findAfter_append (hstop stopStr hmem) hfind]
        apply hagree.prefer
        exact ((findAfter_eq_some_iff (hstop stopStr hmem)).mp hfind).1.add_le (hstop stopStr hmem)
      | none =>
        apply hagree.skip
        intro i hi
        obtain ⟨hocc, hend, -⟩ := (findAfter_eq_some_iff (hstop stopStr hmem)).mp hi
        by_contra hle
        have hnone := (findAfter_eq_none_iff (hstop stopStr hmem)).mp hfind
        have := hnone i (hocc.of_append (by omega))
        omega
  rcases hagree.2 with heq | ⟨hnone, -⟩
  · rw [← heq, h]
  · rw [h] at hnone
    cases hnone

/-- Text in which nothing ends can be skipped in a later search. -/
theorem bestStop_append_of_none (hstop : ∀ stopStr ∈ stop, stopStr ≠ [])
    (hoffset : offset ≤ text.length) (h : bestStop text offset stop = none) :
    bestStop (text ++ more) offset stop = bestStop (text ++ more) text.length stop := by
  have hnone := bestStop_eq_none_iff.mp h
  unfold bestStop
  apply foldl_ext
  intro best stopStr hmem
  rw [findAfter_append_of_none (hstop stopStr hmem) hoffset (hnone stopStr hmem)]
end

/-! ### The detokenizer -/

/-- What the detokenizer reads of the sampling parameters; an empty stop string is refused when
they are made. -/
structure SamplingParams where
  stop : List (List Char)
  minTokens : ℕ
  includeStopStrInOutput : Bool
  stop_ne_nil : ∀ stopStr ∈ stop, stopStr ≠ []

def SamplingParams.stopBufferLength (params : SamplingParams) : ℕ :=
  if params.stop ≠ [] ∧ params.includeStopStrInOutput = false then
    (params.stop.map List.length).foldr max 0 - 1
  else 0

structure Token (τ : Type) where
  id : τ
  text : List Char

structure BaseIncrementalDetokenizer (τ : Type) where
  params : SamplingParams
  tokenIds : List τ
  outputText : List Char
  lastOutputTextOffset : ℕ

namespace BaseIncrementalDetokenizer

variable {τ : Type}

def new (params : SamplingParams) : BaseIncrementalDetokenizer τ := ⟨params, [], [], 0⟩

variable (d : BaseIncrementalDetokenizer τ)

def decode (token : Token τ) : BaseIncrementalDetokenizer τ :=
  { d with tokenIds := d.tokenIds ++ [token.id], outputText := d.outputText ++ token.text }

/-- One pass of the decoding loop of `update`, with `stop_check_offset`. -/
def decodeToken (state : BaseIncrementalDetokenizer τ × ℕ) (token : Token τ) :
    BaseIncrementalDetokenizer τ × ℕ :=
  let d := state.1.decode token
  if d.params.minTokens ≠ 0 ∧ d.tokenIds.length ≤ d.params.minTokens then (d, d.outputText.length)
  else (d, state.2)

/-- The second half of `update`: the text is cut at a stop string. -/
def evaluateStop (stopCheckOffset : ℕ) : BaseIncrementalDetokenizer τ × Option (List Char) :=
  if d.params.stop ≠ [] ∧ d.params.minTokens < d.tokenIds.length then
    match checkStopStrings d.outputText (d.outputText.length - stopCheckOffset) d.params.stop
      d.params.includeStopStrInOutput with
    | none => (d, none)
    | some (stopString, truncateTo) =>
      if truncateTo ≠ -1 then
        ({ d with outputText := d.outputText.take truncateTo.toNat }, some stopString)
      else (d, some stopString)
  else (d, none)

def update (newTokens : List (Token τ)) (stopTerminated : Bool) :
    BaseIncrementalDetokenizer τ × Option (List Char) :=
  if newTokens.isEmpty then (d, none)
  else if stopTerminated ∧ d.params.includeStopStrInOutput = false then
    let (d, offset) := newTokens.dropLast.foldl decodeToken (d, d.outputText.length)
    let skipped := newTokens.getLast?.toList.map Token.id
    evaluateStop { d with tokenIds := d.tokenIds ++ skipped } offset
  else
    let (d, offset) := newTokens.foldl decodeToken (d, d.outputText.length)
    evaluateStop d offset

def getNextOutputText (finished delta : Bool) : BaseIncrementalDetokenizer τ × List Char :=
  let bufferLength := if finished then 0 else d.params.stopBufferLength
  if delta = false then
    (d, d.outputText.take (d.outputText.length - bufferLength))
  else
    let length : ℤ := d.outputText.length - bufferLength
    if d.lastOutputTextOffset < length then
      ({ d with lastOutputTextOffset := length.toNat },
        (d.outputText.take length.toNat).drop d.lastOutputTextOffset)
    else (d, [])

/-! ### One update -/

variable {d : BaseIncrementalDetokenizer τ} {offset : ℕ}

def cutAt (d : BaseIncrementalDetokenizer τ) (m : StopMatch) : List Char :=
  d.outputText.take (m.kept d.params.includeStopStrInOutput)

def stopAt (d : BaseIncrementalDetokenizer τ) :
    Option StopMatch → BaseIncrementalDetokenizer τ × Option (List Char)
  | none => (d, none)
  | some m => ({ d with outputText := d.cutAt m }, some m.stopStr)

theorem bestStop_length {text : List Char} {stop : List (List Char)}
    (hstop : ∀ stopStr ∈ stop, stopStr ≠ []) : bestStop text text.length stop = none := by
  rw [bestStop_eq_none_iff]
  intro stopStr hmem
  rw [findAfter_eq_none_iff (hstop stopStr hmem)]
  intro i hocc
  exact hocc.add_le (hstop stopStr hmem)

/-- `update` cuts at the stop string that ends first in the part to check. -/
theorem evaluateStop_eq (hmin : d.params.minTokens < d.tokenIds.length)
    (hoffset : offset ≤ d.outputText.length) :
    d.evaluateStop offset = d.stopAt (bestStop d.outputText offset d.params.stop) := by
  unfold evaluateStop checkStopStrings
  by_cases hnil : d.params.stop = []
  · rw [if_neg (by simp [hnil]), hnil]
    rfl
  rw [if_pos ⟨hnil, hmin⟩]
  by_cases hnew : offset = d.outputText.length
  · rw [if_pos (.inl (by omega)), hnew, bestStop_length d.params.stop_ne_nil]
    rfl
  rw [if_neg (by simp [hnil]; omega),
    foldl_improveStop d.params.stop_ne_nil (lt_of_le_of_ne hoffset hnew)]
  rcases bestStop d.outputText offset d.params.stop with _ | m
  · rfl
  · dsimp only [stopAt, cutAt, StopMatch.kept]
    by_cases hinclude : d.params.includeStopStrInOutput = true
    · by_cases hlong : d.outputText.length ≤ m.stopEnd
      · simp [hinclude, hlong, take_of_length_le]
      · simp [hinclude, hlong]
    · simp [hinclude]

theorem evaluateStop_of_le (hmin : d.tokenIds.length ≤ d.params.minTokens) :
    d.evaluateStop offset = (d, none) := by
  rw [evaluateStop, if_neg]
  intro h
  omega

variable {token : Token τ} {tokens : List (Token τ)}

@[simp] theorem decode_params : (d.decode token).params = d.params := rfl

@[simp] theorem decode_outputText : (d.decode token).outputText = d.outputText ++ token.text := rfl

@[simp] theorem length_decode_tokenIds :
    (d.decode token).tokenIds.length = d.tokenIds.length + 1 := by
  simp [decode]

theorem foldl_decode (tokens : List (Token τ)) (d : BaseIncrementalDetokenizer τ) :
    tokens.foldl decode d = { d with
      tokenIds := d.tokenIds ++ tokens.map Token.id
      outputText := d.outputText ++ (tokens.map Token.text).flatten } := by
  induction tokens generalizing d with
  | nil => simp
  | cons token tokens ih => simp [ih, decode]

theorem decodeToken_of_le (hmin : d.tokenIds.length + 1 ≤ d.params.minTokens) :
    decodeToken (d, offset) token = (d.decode token, (d.decode token).outputText.length) := by
  unfold decodeToken
  rw [if_pos]
  simp only [decode_params, length_decode_tokenIds]
  omega

theorem decodeToken_of_lt (hmin : d.params.minTokens < d.tokenIds.length + 1) :
    decodeToken (d, offset) token = (d.decode token, offset) := by
  unfold decodeToken
  rw [if_neg]
  simp only [decode_params, length_decode_tokenIds]
  omega

theorem foldl_decodeToken_of_lt (hmin : d.params.minTokens < d.tokenIds.length) :
    tokens.foldl decodeToken (d, offset) = (tokens.foldl decode d, offset) := by
  induction tokens generalizing d with
  | nil => rfl
  | cons token tokens ih =>
    rw [foldl_cons, foldl_cons, decodeToken_of_lt (by omega), ih]
    simp only [decode_params, length_decode_tokenIds]
    omega

theorem update_cons (d : BaseIncrementalDetokenizer τ) (token : Token τ)
    (tokens : List (Token τ)) :
    d.update (token :: tokens) false =
      (tokens.foldl decodeToken (decodeToken (d, d.outputText.length) token)).1.evaluateStop
        (tokens.foldl decodeToken (decodeToken (d, d.outputText.length) token)).2 := by
  simp [update]

/-- Below the minimum a token is only decoded. -/
theorem update_cons_of_le (hmin : d.tokenIds.length + 1 ≤ d.params.minTokens) :
    d.update (token :: tokens) false = (d.decode token).update tokens false := by
  rw [update_cons, decodeToken_of_le hmin]
  cases tokens with
  | nil => exact evaluateStop_of_le (by simpa using hmin)
  | cons next tokens =>
    rw [update_cons, foldl_cons]

/-- Past the minimum, one search from where the update began. -/
theorem update_cons_of_lt (hmin : d.params.minTokens < d.tokenIds.length + 1) :
    d.update (token :: tokens) false = (tokens.foldl decode (d.decode token)).stopAt
      (bestStop (tokens.foldl decode (d.decode token)).outputText d.outputText.length
        d.params.stop) := by
  rw [update_cons, decodeToken_of_lt hmin,
    foldl_decodeToken_of_lt (by simpa using hmin), evaluateStop_eq]
  · rw [foldl_decode]
    rfl
  · rw [foldl_decode]
    simp only [decode_params, length_append, length_decode_tokenIds]
    omega
  · rw [foldl_decode]
    simp only [decode_outputText, length_append]
    omega

theorem update_single_of_le (hmin : d.tokenIds.length + 1 ≤ d.params.minTokens) :
    d.update [token] false = (d.decode token, none) :=
  update_cons_of_le hmin

theorem update_single_of_lt (hmin : d.params.minTokens < d.tokenIds.length + 1) :
    d.update [token] false = (d.decode token).stopAt
      (bestStop (d.decode token).outputText d.outputText.length d.params.stop) :=
  update_cons_of_lt hmin

/-- When its first token completes no stop string, the rest of a batch may come in a call of
its own. -/
theorem update_cons_of_none (h : (d.update [token] false).2 = none) (tokens : List (Token τ)) :
    d.update (token :: tokens) false = (d.update [token] false).1.update tokens false := by
  rcases Nat.lt_or_ge d.params.minTokens (d.tokenIds.length + 1) with hmin | hmin
  · rw [update_single_of_lt hmin] at h ⊢
    rcases hbest : bestStop (d.decode token).outputText d.outputText.length d.params.stop with
      _ | m
    · rw [stopAt]
      cases tokens with
      | nil =>
        rw [update_single_of_lt hmin, hbest]
        rfl
      | cons next tokens =>
        rw [update_cons_of_lt hmin, update_cons_of_lt (by simp; omega), foldl_cons]
        congr 1
        rw [foldl_decode, decode_outputText, append_assoc]
        exact bestStop_append_of_none d.params.stop_ne_nil (by simp) hbest
    · rw [hbest] at h
      cases h
  · rw [update_single_of_le hmin]
    exact update_cons_of_le hmin

/-- When its first token completes one, the rest of the batch does not matter. -/
theorem update_cons_of_some {stopString : List Char}
    (h : (d.update [token] false).2 = some stopString) (tokens : List (Token τ)) :
    (d.update (token :: tokens) false).2 = some stopString ∧
      (d.update (token :: tokens) false).1.outputText = (d.update [token] false).1.outputText := by
  rcases Nat.lt_or_ge d.params.minTokens (d.tokenIds.length + 1) with hmin | hmin
  · rw [update_single_of_lt hmin] at h ⊢
    rw [update_cons_of_lt hmin]
    rcases hbest : bestStop (d.decode token).outputText d.outputText.length d.params.stop with
      _ | m
    · rw [hbest] at h
      cases h
    · rw [hbest] at h
      obtain ⟨-, hend, hle⟩ := bestStop_spec d.params.stop_ne_nil hbest
      have hfull : bestStop ((d.decode token).outputText ++ (tokens.map Token.text).flatten)
          d.outputText.length d.params.stop = some m :=
        bestStop_append d.params.stop_ne_nil hbest
      rw [foldl_decode, hfull]
      refine ⟨h, ?_⟩
      dsimp only [stopAt, cutAt]
      exact take_append_of_le_length ((m.kept_le_stopEnd _).trans hle)
  · rw [update_single_of_le hmin] at h
    cases h

/-- What a call does to the text: it grows, and a stop string that ends in the new part may cut
it. -/
theorem update_outcome (d : BaseIncrementalDetokenizer τ) (tokens : List (Token τ)) :
    ∃ more, d.update tokens false = ({ d with
        tokenIds := d.tokenIds ++ tokens.map Token.id
        outputText := d.outputText ++ more }, none) ∨
      ∃ m : StopMatch, m.stopStr ∈ d.params.stop ∧ d.outputText.length < m.stopEnd ∧
        m.stopEnd ≤ (d.outputText ++ more).length ∧
        d.update tokens false = ({ d with
          tokenIds := d.tokenIds ++ tokens.map Token.id
          outputText := (d.outputText ++ more).take (m.kept d.params.includeStopStrInOutput) },
          some m.stopStr) := by
  induction tokens generalizing d with
  | nil => exact ⟨[], .inl (by simp [update])⟩
  | cons token tokens ih =>
    rcases Nat.lt_or_ge d.params.minTokens (d.tokenIds.length + 1) with hmin | hmin
    · refine ⟨token.text ++ (tokens.map Token.text).flatten, ?_⟩
      rw [update_cons_of_lt hmin, foldl_decode]
      rcases hbest : bestStop ((d.decode token).outputText ++ (tokens.map Token.text).flatten)
        d.outputText.length d.params.stop with _ | m
      · left
        simp [stopAt, decode]
      · right
        obtain ⟨hmem, hend, hle⟩ := bestStop_spec d.params.stop_ne_nil hbest
        refine ⟨m, hmem, hend, by simpa using hle, ?_⟩
        simp only [stopAt, cutAt, decode, append_assoc, map_cons, cons_append,
          nil_append]
    · obtain ⟨more, h⟩ := ih (d.decode token)
      refine ⟨token.text ++ more, ?_⟩
      rw [update_cons_of_le hmin]
      rcases h with h | ⟨m, hmem, hend, hle, h⟩
      · left
        rw [h]
        simp [decode]
      · right
        simp only [decode_outputText, length_append] at hend hle
        refine ⟨m, hmem, by omega, by simpa [Nat.add_assoc] using hle, ?_⟩
        rw [h]
        simp only [decode, append_assoc, map_cons, cons_append, nil_append]

def withOffset (d : BaseIncrementalDetokenizer τ) (n : ℕ) : BaseIncrementalDetokenizer τ :=
  -- `update` neither reads nor writes how far the text has been streamed.
  { d with lastOutputTextOffset := n }

theorem update_withOffset (d : BaseIncrementalDetokenizer τ) (n : ℕ) (tokens : List (Token τ)) :
    (d.withOffset n).update tokens false =
      ((d.update tokens false).1.withOffset n, (d.update tokens false).2) := by
  induction tokens generalizing d with
  | nil => simp [update]
  | cons token tokens ih =>
    rcases Nat.lt_or_ge d.params.minTokens (d.tokenIds.length + 1) with hmin | hmin
    · have hmin' : (d.withOffset n).params.minTokens < (d.withOffset n).tokenIds.length + 1 := hmin
      rw [update_cons_of_lt hmin, update_cons_of_lt hmin', foldl_decode, foldl_decode]
      dsimp only [withOffset, decode]
      cases bestStop (d.outputText ++ token.text ++ (tokens.map Token.text).flatten)
        d.outputText.length d.params.stop <;> rfl
    · have hmin' : (d.withOffset n).tokenIds.length + 1 ≤ (d.withOffset n).params.minTokens := hmin
      rw [update_cons_of_le hmin, update_cons_of_le hmin']
      exact ih (d.decode token)

def bufferLength (d : BaseIncrementalDetokenizer τ) (finished : Bool) : ℕ :=
  if finished then 0 else d.params.stopBufferLength

def nextOffset (d : BaseIncrementalDetokenizer τ) (finished : Bool) : ℕ :=
  max d.lastOutputTextOffset (d.outputText.length - d.bufferLength finished)

theorem getNextOutputText_delta (d : BaseIncrementalDetokenizer τ) (finished : Bool) :
    d.getNextOutputText finished true = (d.withOffset (d.nextOffset finished),
      (d.outputText.take (d.nextOffset finished)).drop d.lastOutputTextOffset) := by
  have hbuffer : (if finished then 0 else d.params.stopBufferLength) = d.bufferLength finished :=
    rfl
  unfold getNextOutputText nextOffset
  dsimp only
  rw [if_neg (by decide), hbuffer]
  by_cases hlt : (d.lastOutputTextOffset : ℤ) < d.outputText.length - d.bufferLength finished
  · rw [if_pos hlt, max_eq_right (by omega)]
    have hlength : ((d.outputText.length : ℤ) - d.bufferLength finished).toNat =
        d.outputText.length - d.bufferLength finished := by omega
    rw [hlength]
    rfl
  · rw [if_neg hlt, max_eq_left (by omega), drop_take]
    simp [withOffset]

theorem take_append_getNextOutputText (d : BaseIncrementalDetokenizer τ) (finished : Bool) :
    d.outputText.take d.lastOutputTextOffset ++ (d.getNextOutputText finished true).2 =
      d.outputText.take (d.nextOffset finished) := by
  have hle : d.lastOutputTextOffset ≤ d.nextOffset finished := le_max_left _ _
  have hjoin := take_append_drop d.lastOutputTextOffset
    (d.outputText.take (d.nextOffset finished))
  rw [take_take, min_eq_left hle] at hjoin
  rw [getNextOutputText_delta]
  exact hjoin

/-- What is held back covers all of a stop string but its last character. -/
theorem length_le_stopBufferLength {params : SamplingParams} {stopStr : List Char}
    (hmem : stopStr ∈ params.stop) (hinclude : params.includeStopStrInOutput = false) :
    stopStr.length ≤ params.stopBufferLength + 1 := by
  have hne : params.stop ≠ [] := ne_nil_of_mem hmem
  have hmax : stopStr.length ≤ (params.stop.map List.length).foldr max 0 :=
    le_max_of_le' 0 (mem_map_of_mem hmem) le_rfl
  rw [SamplingParams.stopBufferLength, if_pos ⟨hne, hinclude⟩]
  omega

end BaseIncrementalDetokenizer

/-! ### A request -/

inductive Call (τ : Type) where
  | update (tokens : List (Token τ))
  /-- `get_next_output_text(finished=False, delta=True)` -/
  | getNextOutputText

/-- A request at its detokenizer, with the stop string that came back and the text streamed. -/
structure Session (τ : Type) where
  detokenizer : BaseIncrementalDetokenizer τ
  stopString : Option (List Char) := none
  streamed : List Char := []

namespace Session

variable {τ : Type}

def step (s : Session τ) : Call τ → Session τ
  -- The caller makes no update after a stop string came back.
  | .update tokens =>
    if s.stopString.isSome then s
    else
      let (detokenizer, stopString) := s.detokenizer.update tokens false
      { s with detokenizer, stopString }
  | .getNextOutputText =>
    let (detokenizer, text) := s.detokenizer.getNextOutputText false true
    { s with detokenizer, streamed := s.streamed ++ text }

def run (s : Session τ) (calls : List (Call τ)) : Session τ := calls.foldl step s

end Session

def Call.tokens {τ : Type} : Call τ → List (Token τ)
  | .update tokens => tokens
  | .getNextOutputText => []

def oneByOne {τ : Type} (tokens : List (Token τ)) : List (Call τ) :=
  tokens.map fun token => .update [token]

namespace Session

variable {τ : Type} {s one : Session τ}

/-- The request has the same text and the same stop string in both sessions, and while it goes
on the same detokenizer up to what has been streamed. -/
structure Alike (s one : Session τ) : Prop where
  stopString : s.stopString = one.stopString
  outputText : s.detokenizer.outputText = one.detokenizer.outputText
  detokenizer : s.stopString = none →
    s.detokenizer = one.detokenizer.withOffset s.detokenizer.lastOutputTextOffset

theorem run_oneByOne_of_isSome (h : s.stopString.isSome) (tokens : List (Token τ)) :
    s.run (oneByOne tokens) = s := by
  induction tokens with
  | nil => rfl
  | cons token tokens ih =>
    have hstep : s.step (.update [token]) = s := by
      rw [step, if_pos h]
    unfold run oneByOne at ih ⊢
    rw [map_cons, foldl_cons, hstep]
    exact ih

theorem step_update (h : s.stopString = none) (tokens : List (Token τ)) :
    s.step (.update tokens) = { s with
      detokenizer := (s.detokenizer.update tokens false).1
      stopString := (s.detokenizer.update tokens false).2 } := by
  rw [step, h]
  rfl

/-- One call with all the tokens, and a call for each. -/
theorem alike_oneByOne (h : s.stopString = none) (tokens : List (Token τ)) :
    Alike (s.step (.update tokens)) (s.run (oneByOne tokens)) := by
  induction tokens generalizing s with
  | nil =>
    rw [step_update h]
    exact ⟨by simp [BaseIncrementalDetokenizer.update, run, oneByOne, h], rfl, fun _ => rfl⟩
  | cons token tokens ih =>
    have hrun : s.run (oneByOne (token :: tokens)) =
        (s.step (.update [token])).run (oneByOne tokens) := rfl
    rw [hrun, step_update h]
    cases hfirst : (s.detokenizer.update [token] false).2 with
    | none =>
      have hnone : (s.step (.update [token])).stopString = none := by
        rw [step_update h]
        exact hfirst
      have hrest := ih hnone
      rw [step_update hnone, step_update h] at hrest
      rwa [BaseIncrementalDetokenizer.update_cons_of_none hfirst, step_update h]
    | some stopString =>
      have hsome : (s.step (.update [token])).stopString.isSome := by
        rw [step_update h]
        simp [hfirst]
      rw [run_oneByOne_of_isSome hsome, step_update h]
      obtain ⟨hstop, htext⟩ := BaseIncrementalDetokenizer.update_cons_of_some hfirst tokens
      refine ⟨hstop.trans hfirst.symm, htext, ?_⟩
      intro hnone
      rw [hstop] at hnone
      cases hnone

theorem run_append (s : Session τ) (calls calls' : List (Call τ)) :
    s.run (calls ++ calls') = (s.run calls).run calls' :=
  foldl_append

theorem Alike.trans {two : Session τ} (h : Alike s one) (h' : Alike one two) : Alike s two := by
  refine ⟨h.stopString.trans h'.stopString, h.outputText.trans h'.outputText, ?_⟩
  intro hnone
  have hone := h'.detokenizer (h.stopString ▸ hnone)
  rw [h.detokenizer hnone, hone]
  rfl

/-- One update of several tokens is as good as one update for each. -/
theorem Alike.step (h : Alike s one) (call : Call τ) :
    Alike (s.step call) (one.run (oneByOne call.tokens)) := by
  cases call with
  | getNextOutputText =>
    dsimp only [Session.step]
    rw [BaseIncrementalDetokenizer.getNextOutputText_delta]
    refine ⟨h.stopString, h.outputText, ?_⟩
    intro hnone
    dsimp only
    rw [h.detokenizer hnone]
    rfl
  | update tokens =>
    cases hstop : s.stopString with
    | none =>
      have hone : one.stopString = none := h.stopString ▸ hstop
      refine Alike.trans ?_ (alike_oneByOne hone tokens)
      rw [step_update hstop, step_update hone, h.detokenizer hstop,
        BaseIncrementalDetokenizer.update_withOffset]
      exact ⟨rfl, rfl, fun _ => rfl⟩
    | some stopString =>
      have hsome : s.stopString.isSome := by
        rw [hstop]
        rfl
      dsimp only [Call.tokens]
      rwa [run_oneByOne_of_isSome (h.stopString ▸ hsome), Session.step, if_pos hsome]

/-- So are the updates of a whole session. -/
theorem Alike.run (h : Alike s one) (calls : List (Call τ)) :
    Alike (s.run calls) (one.run (oneByOne (calls.flatMap Call.tokens))) := by
  induction calls generalizing s one with
  | nil => exact h
  | cons call calls ih =>
    have hone : oneByOne ((call :: calls).flatMap Call.tokens) =
        oneByOne call.tokens ++ oneByOne (calls.flatMap Call.tokens) := by
      simp [oneByOne]
    rw [hone, run_append]
    exact ih (h.step call)

/-! ### What is streamed -/

/-- What has been streamed is a beginning of the text. While the request goes on it ends before
every place where a stop string may still cut. -/
structure Streams (s : Session τ) : Prop where
  le_length : s.detokenizer.lastOutputTextOffset ≤ s.detokenizer.outputText.length
  streamed : s.streamed = s.detokenizer.outputText.take s.detokenizer.lastOutputTextOffset
  held : s.stopString = none → s.detokenizer.lastOutputTextOffset = 0 ∨
    s.detokenizer.lastOutputTextOffset + s.detokenizer.params.stopBufferLength ≤
      s.detokenizer.outputText.length

/-- New tokens cut nothing that was streamed, since an end that may begin a stop string is held
back. -/
theorem Streams.update (h : Streams s) (hnone : s.stopString = none) (tokens : List (Token τ)) :
    Streams (s.step (.update tokens)) := by
  rw [step_update hnone]
  obtain ⟨more, hmore | ⟨m, hmem, hend, hle, hmore⟩⟩ := s.detokenizer.update_outcome tokens
  · rw [hmore]
    have hlong : s.detokenizer.outputText.length ≤ (s.detokenizer.outputText ++ more).length := by
      simp
    refine ⟨h.le_length.trans hlong, ?_, ?_⟩
    · exact h.streamed.trans (take_append_of_le_length h.le_length).symm
    · intro _
      exact (h.held hnone).imp id fun hheld => hheld.trans hlong
  · rw [hmore]
    -- a stop string that ends in the new text begins after what has been streamed
    have hkept : s.detokenizer.lastOutputTextOffset ≤
        m.kept s.detokenizer.params.includeStopStrInOutput := by
      have hlast := h.le_length
      unfold StopMatch.kept
      split_ifs with hinclude
      · omega
      · have hlen := BaseIncrementalDetokenizer.length_le_stopBufferLength hmem
          (Bool.not_eq_true _ ▸ hinclude)
        have hheld := h.held hnone
        unfold StopMatch.stopEnd at hend
        omega
    refine ⟨?_, ?_, ?_⟩
    · have hlast := h.le_length
      simp only [length_take, length_append]
      omega
    · dsimp only
      rw [take_take, min_eq_left hkept, take_append_of_le_length h.le_length]
      exact h.streamed
    · intro hstop
      cases hstop

theorem Streams.getNextOutputText (h : Streams s) : Streams (s.step .getNextOutputText) := by
  have htext := s.detokenizer.take_append_getNextOutputText false
  rw [← h.streamed] at htext
  have hnext : s.detokenizer.nextOffset false = max s.detokenizer.lastOutputTextOffset
      (s.detokenizer.outputText.length - s.detokenizer.params.stopBufferLength) := rfl
  have hlast := h.le_length
  dsimp only [Session.step]
  rw [htext, BaseIncrementalDetokenizer.getNextOutputText_delta]
  refine ⟨?_, rfl, ?_⟩
  · dsimp only [BaseIncrementalDetokenizer.withOffset]
    omega
  · intro hnone
    have hheld := h.held hnone
    dsimp only [BaseIncrementalDetokenizer.withOffset]
    omega

theorem Streams.step (h : Streams s) (call : Call τ) : Streams (s.step call) := by
  cases call with
  | getNextOutputText => exact h.getNextOutputText
  | update tokens =>
    cases hstop : s.stopString with
    | none => exact h.update hstop tokens
    | some stopString =>
      rw [Session.step, if_pos (by rw [hstop]; rfl)]
      exact h

/-- Whatever the calls, what was streamed stays. -/
theorem Streams.run (h : Streams s) (calls : List (Call τ)) : Streams (s.run calls) := by
  induction calls generalizing s with
  | nil => exact h
  | cons call calls ih => exact ih (h.step call)

/-- Grouping tokens into calls changes neither the text nor the stop string, and what is streamed
in between with the rest at the end is the text. -/
theorem run_update_grouping (params : SamplingParams) (calls : List (Call τ)) :
    let s := run ⟨.new params, none, []⟩ calls
    let one := run ⟨.new params, none, []⟩ (oneByOne (calls.flatMap Call.tokens))
    s.detokenizer.outputText = one.detokenizer.outputText ∧ s.stopString = one.stopString ∧
      s.streamed ++ (s.detokenizer.getNextOutputText true true).2 = s.detokenizer.outputText := by
  intro s one
  have halike : Alike s one := Alike.run ⟨rfl, rfl, fun _ => rfl⟩ calls
  have hstreams : Streams s := Streams.run ⟨le_rfl, rfl, fun _ => Or.inl rfl⟩ calls
  refine ⟨halike.outputText, halike.stopString, ?_⟩
  rw [hstreams.streamed, BaseIncrementalDetokenizer.take_append_getNextOutputText]
  exact take_of_length_le (le_max_right _ _)

end Session

end Vllm.Detokenizer
