import Vllm.MarkerSearch

/-!
The delimited reasoning parser: decoded text arrives in deltas and is split into
reasoning and content at a start and an end token. An end of the buffer that may
still grow into one of the tokens waits for the next delta. When no proper end of a
token begins a token, the split does not depend on how the text was cut.
-/
namespace Vllm.Reasoning

open MarkerSearch List

/-! ### The parser -/

structure ReasoningDelta where
  reasoning : Option (List Char) := none
  content : Option (List Char) := none
  deriving DecidableEq, Repr

namespace ReasoningDelta

def pushReasoning (delta : ReasoningDelta) (text : List Char) : ReasoningDelta :=
  if text = [] then delta
  else { delta with reasoning := some (delta.reasoning.getD [] ++ text) }

def pushContent (delta : ReasoningDelta) (text : List Char) : ReasoningDelta :=
  if text = [] then delta
  else { delta with content := some (delta.content.getD [] ++ text) }

def text (delta : ReasoningDelta) (inReasoning : Bool) : List Char :=
  (if inReasoning then delta.reasoning else delta.content).getD []

@[simp] theorem text_empty (side : Bool) : text {} side = [] := by
  cases side <;> rfl

theorem text_pushReasoning (delta : ReasoningDelta) (text : List Char) (side : Bool) :
    (delta.pushReasoning text).text side = delta.text side ++ if side = true then text else [] := by
  unfold pushReasoning
  split_ifs with hempty hside hside <;> simp_all [ReasoningDelta.text]

theorem text_pushContent (delta : ReasoningDelta) (text : List Char) (side : Bool) :
    (delta.pushContent text).text side = delta.text side ++ if side = false then text else [] := by
  unfold pushContent
  split_ifs with hempty hside hside <;> simp_all [ReasoningDelta.text]

end ReasoningDelta

/-- The loop of `parse_stable_text` ends because the tokens are not empty. -/
structure DelimitedReasoningParser where
  currentInReasoning : Bool
  buffer : List Char
  startToken : List Char
  endToken : List Char
  startToken_ne_nil : startToken ≠ []
  endToken_ne_nil : endToken ≠ []

namespace DelimitedReasoningParser

theorem length_drop_find {token stable : List Char} {idx : ℕ} (htoken : token ≠ [])
    (hfind : find token stable = some idx) :
    (stable.drop (idx + token.length)).length < stable.length := by
  have hle := ((find_eq_some_iff htoken).mp hfind).1.add_le htoken
  have hpos := length_pos_iff.mpr htoken
  rw [length_drop]
  omega

def parseLoop (p : DelimitedReasoningParser) (stable : List Char) (delta : ReasoningDelta) :
    DelimitedReasoningParser × ReasoningDelta :=
  if stable = [] then (p, delta)
  else if p.currentInReasoning then
    match _hfind : find p.endToken stable with
    | some endIdx =>
      parseLoop { p with currentInReasoning := false } (stable.drop (endIdx + p.endToken.length))
        (delta.pushReasoning (stable.take endIdx))
    | none => (p, delta.pushReasoning stable)
  else
    match _hfind : find p.startToken stable with
    | some startIdx =>
      parseLoop { p with currentInReasoning := true }
        (stable.drop (startIdx + p.startToken.length)) (delta.pushContent (stable.take startIdx))
    | none => (p, delta.pushContent stable)
termination_by stable.length
decreasing_by
  · exact length_drop_find p.endToken_ne_nil ‹_›
  · exact length_drop_find p.startToken_ne_nil ‹_›

variable (p : DelimitedReasoningParser)

def parseStableText (stable : List Char) : DelimitedReasoningParser × ReasoningDelta :=
  parseLoop p stable {}

/-- One pass of the loop of `partial_suffix_len`. The suffixes of a text are ordered alike by
their bytes and by their characters, so the length counts characters. -/
def improveSuffix (best : ℕ) (suffix : List Char) : ℕ :=
  let best := if suffix <+: p.startToken ∧ p.startToken ≠ suffix then max best suffix.length
    else best
  if suffix <+: p.endToken ∧ p.endToken ≠ suffix then max best suffix.length else best

def partialSuffixLen (text : List Char) : ℕ :=
  let inner := ((List.range text.length).drop 1).map fun idx => text.drop idx
  p.improveSuffix (inner.foldl p.improveSuffix 0) text

def push (delta : List Char) : DelimitedReasoningParser × ReasoningDelta :=
  let buffer := p.buffer ++ delta
  let stableLen := buffer.length - p.partialSuffixLen buffer
  parseStableText { p with buffer := buffer.drop stableLen } (buffer.take stableLen)

def finish (p : DelimitedReasoningParser) : DelimitedReasoningParser × ReasoningDelta :=
  parseStableText { p with buffer := [] } p.buffer

def stream (p : DelimitedReasoningParser) : List (List Char) → List ReasoningDelta
  | [] => [p.finish.2]
  | chunk :: chunks => (p.push chunk).2 :: stream (p.push chunk).1 chunks

def streamed (chunks : List (List Char)) (side : Bool) : List Char :=
  (p.stream chunks).flatMap fun delta => delta.text side

def started (startToken endToken : List Char) (hstart : startToken ≠ []) (hend : endToken ≠ [])
    (inReasoning : Bool) : DelimitedReasoningParser :=
  ⟨inReasoning, [], startToken, endToken, hstart, hend⟩

end DelimitedReasoningParser

/-! ### The split of a whole text -/

def closingToken (startToken endToken : List Char) (mode : Bool) : List Char :=
  if mode then endToken else startToken

section
variable (closing : Bool → List Char)

/-- The whole text, read in one mode. It changes at the leftmost token that ends the mode and
the token is dropped. `parts side` is what was read in the mode `side`, `final` the last mode. -/
inductive Splits : Bool → List Char → (Bool → List Char) → Bool → Prop
  | last {mode : Bool} {text : List Char} (hnone : ∀ i, ¬ OccursAt (closing mode) text i) :
      Splits mode text (fun side => if side = mode then text else []) mode
  | switch {mode : Bool} {text : List Char} {i : ℕ} {parts : Bool → List Char} {final : Bool}
      (hocc : OccursAt (closing mode) text i) (hfirst : ∀ j < i, ¬ OccursAt (closing mode) text j)
      (hrest : Splits (!mode) (text.drop (i + (closing mode).length)) parts final) :
      Splits mode text (fun side => (if side = mode then text.take i else []) ++ parts side) final

/-- No token stands across position `k` of the text. -/
def CutAt (text : List Char) (k : ℕ) : Prop :=
  ∀ mode i, OccursAt (closing mode) text i → i + (closing mode).length ≤ k ∨ k ≤ i

variable {closing} {mode final final' : Bool} {text rest : List Char}
  {parts parts' : Bool → List Char}

/-- Text has one split into reasoning and content. -/
theorem Splits.unique (h : Splits closing mode text parts final)
    (h' : Splits closing mode text parts' final') : parts = parts' ∧ final = final' := by
  induction h generalizing parts' final' with
  | last hnone =>
    cases h' with
    | last _ => exact ⟨rfl, rfl⟩
    | switch hocc _ _ => exact absurd hocc (hnone _)
  | @switch mode text i parts final hocc hfirst hrest ih =>
    cases h' with
    | last hnone => exact absurd hocc (hnone i)
    | @switch _ _ j parts' _ hocc' hfirst' hrest' =>
      have hij : i = j := by
        apply le_antisymm
        · exact not_lt.mp fun hlt => hfirst j hlt hocc'
        · exact not_lt.mp fun hlt => hfirst' i hlt hocc
      subst hij
      obtain ⟨hparts, hfinal⟩ := ih hrest'
      exact ⟨by rw [hparts], hfinal⟩

theorem CutAt.drop {k n : ℕ} (h : CutAt closing text k) (hn : n ≤ k) :
    CutAt closing (text.drop n) (k - n) := by
  intro mode i hocc
  have hcut := h mode (n + i) (occursAt_drop.mp hocc)
  omega

theorem occursAt_append_right {token : List Char} {i : ℕ} :
    OccursAt token (text ++ rest) (text.length + i) ↔ OccursAt token rest i := by
  rw [← occursAt_drop, drop_left]

theorem CutAt.of_append (hne : ∀ mode, closing mode ≠ []) {k : ℕ}
    (h : CutAt closing (text ++ rest) k) : CutAt closing text k := by
  intro mode i hocc
  exact h mode i (hocc.append (hne mode) rest)

/-- Positions that no token stands across stay so when text that ends at such a position is put in
front. -/
theorem CutAt.append {k : ℕ} (h : CutAt closing (text ++ rest) text.length)
    (h' : CutAt closing rest k) : CutAt closing (text ++ rest) (text.length + k) := by
  intro mode i hocc
  rcases h mode i hocc with hle | hle
  · exact .inl (hle.trans (Nat.le_add_right _ _))
  · obtain ⟨j, rfl⟩ := Nat.exists_eq_add_of_le hle
    have hcut := h' mode j (occursAt_append_right.mp hocc)
    omega

/-- Text that no token of its mode stands in or reaches out of only grows the first part. -/
theorem Splits.prepend (hnone : ∀ i, ¬ OccursAt (closing mode) text i)
    (hcut : CutAt closing (text ++ rest) text.length) (h : Splits closing mode rest parts final) :
    Splits closing mode (text ++ rest)
      (fun side => (if side = mode then text else []) ++ parts side) final := by
  have hafter : ∀ i, OccursAt (closing mode) (text ++ rest) i →
      ∃ j, i = text.length + j ∧ OccursAt (closing mode) rest j := by
    intro i hocc
    rcases hcut mode i hocc with hle | hle
    · exact absurd (hocc.of_append hle) (hnone i)
    · obtain ⟨j, rfl⟩ := Nat.exists_eq_add_of_le hle
      exact ⟨j, rfl, occursAt_append_right.mp hocc⟩
  cases h with
  | last hnone' =>
    have hlast : Splits closing mode (text ++ rest)
        (fun side => if side = mode then text ++ rest else []) mode := by
      apply Splits.last
      intro i hocc
      obtain ⟨j, -, hj⟩ := hafter i hocc
      exact hnone' j hj
    convert hlast using 2 with side
    by_cases hside : side = mode <;> simp [hside]
  | @switch _ _ i parts _ hocc hfirst hrest =>
    have hswitch : Splits closing mode (text ++ rest)
        (fun side => (if side = mode then (text ++ rest).take (text.length + i) else []) ++
          parts side) final := by
      apply Splits.switch (occursAt_append_right.mpr hocc)
      · intro j hj hocc'
        obtain ⟨k, rfl, hk⟩ := hafter j hocc'
        exact hfirst k (by omega) hk
      · rwa [Nat.add_assoc, ← drop_drop, drop_left]
    convert hswitch using 2 with side
    rw [take_length_add_append]
    by_cases hside : side = mode <;> simp [hside]

/-- Two readings one after the other, when no token stands across the border. -/
theorem Splits.append (hne : ∀ mode, closing mode ≠ []) (h : Splits closing mode text parts final)
    (h' : Splits closing final rest parts' final')
    (hcut : CutAt closing (text ++ rest) text.length) :
    Splits closing mode (text ++ rest) (fun side => parts side ++ parts' side) final' := by
  induction h with
  | @last mode text hnone => exact h'.prepend hnone hcut
  | @switch mode text i parts final hocc hfirst hrest ih =>
    have hle := hocc.add_le (hne mode)
    have hdrop : (text ++ rest).drop (i + (closing mode).length) =
        text.drop (i + (closing mode).length) ++ rest := drop_append_of_le_length hle
    have hcut' := hcut.drop hle
    rw [hdrop, ← length_drop] at hcut'
    have hswitch := Splits.switch (hocc.append (hne mode) rest) ?_ (hdrop ▸ ih h' hcut')
    · convert hswitch using 2 with side
      rw [take_append_of_le_length (by omega), append_assoc]
    · intro j hj hocc'
      exact hfirst j hj (hocc'.of_append (by omega))
end

/-! ### One delta -/

namespace DelimitedReasoningParser

variable {p : DelimitedReasoningParser} {text rest : List Char}

def closing (p : DelimitedReasoningParser) : Bool → List Char :=
  closingToken p.startToken p.endToken

theorem closing_ne_nil (p : DelimitedReasoningParser) (mode : Bool) : p.closing mode ≠ [] := by
  cases mode
  · exact p.startToken_ne_nil
  · exact p.endToken_ne_nil

theorem not_occursAt_nil (p : DelimitedReasoningParser) (mode : Bool) (i : ℕ) :
    ¬ OccursAt (p.closing mode) [] i := by
  intro hocc
  have hle := hocc.add_le (p.closing_ne_nil mode)
  have hpos := length_pos_iff.mpr (p.closing_ne_nil mode)
  rw [length_nil] at hle
  omega

/-- The loop reads the stable text as the whole text is read, from the parser's mode on. -/
theorem parseLoop_spec (p : DelimitedReasoningParser) (stable : List Char)
    (delta : ReasoningDelta) :
    ∃ parts final, Splits p.closing p.currentInReasoning stable parts final ∧
      (parseLoop p stable delta).1 = { p with currentInReasoning := final } ∧
      ∀ side, (parseLoop p stable delta).2.text side = delta.text side ++ parts side := by
  fun_induction parseLoop p stable delta with
  | case1 p delta =>
    refine ⟨_, _, .last (p.not_occursAt_nil _), rfl, ?_⟩
    intro side
    simp
  | case2 p stable delta hstable hmode endIdx hfind ih =>
    obtain ⟨parts, final, hsplit, hp, hdelta⟩ := ih
    obtain ⟨hocc, hfirst⟩ := (find_eq_some_iff p.endToken_ne_nil).mp hfind
    rw [hmode]
    refine ⟨_, final, .switch hocc hfirst hsplit, hp, ?_⟩
    intro side
    rw [hdelta, ReasoningDelta.text_pushReasoning, append_assoc]
  | case3 p stable delta hstable hmode hfind =>
    have hnone := (find_eq_none_iff p.endToken_ne_nil).mp hfind
    rw [hmode]
    refine ⟨_, true, .last hnone, by rw [← hmode], ?_⟩
    intro side
    rw [ReasoningDelta.text_pushReasoning]
  | case4 p stable delta hstable hmode startIdx hfind ih =>
    obtain ⟨parts, final, hsplit, hp, hdelta⟩ := ih
    obtain ⟨hocc, hfirst⟩ := (find_eq_some_iff p.startToken_ne_nil).mp hfind
    rw [Bool.not_eq_true] at hmode
    rw [hmode]
    refine ⟨_, final, .switch hocc hfirst hsplit, hp, ?_⟩
    intro side
    rw [hdelta, ReasoningDelta.text_pushContent, append_assoc]
  | case5 p stable delta hstable hmode hfind =>
    have hnone := (find_eq_none_iff p.startToken_ne_nil).mp hfind
    rw [Bool.not_eq_true] at hmode
    rw [hmode]
    refine ⟨_, false, .last hnone, by rw [← hmode], ?_⟩
    intro side
    rw [ReasoningDelta.text_pushContent]

/-- The loop of `parse_stable_text` splits its text and remembers the mode it ends in. -/
theorem parseStableText_spec (p : DelimitedReasoningParser) (stable : List Char) :
    ∃ final, Splits p.closing p.currentInReasoning stable (parseStableText p stable).2.text final ∧
      (parseStableText p stable).1 = { p with currentInReasoning := final } := by
  obtain ⟨parts, final, hsplit, hp, hdelta⟩ := parseLoop_spec p stable {}
  refine ⟨final, ?_, hp⟩
  have hparts : (parseStableText p stable).2.text = parts := by
    funext side
    exact (hdelta side).trans (by rw [ReasoningDelta.text_empty, nil_append])
  rwa [hparts]

/-! ### What waits -/

def Grows (p : DelimitedReasoningParser) (text : List Char) : Prop :=
  ∃ mode, text <+: p.closing mode ∧ p.closing mode ≠ text

theorem grows_iff : p.Grows text ↔
    (text <+: p.startToken ∧ p.startToken ≠ text) ∨ (text <+: p.endToken ∧ p.endToken ≠ text) :=
  Bool.exists_bool

theorem le_improveSuffix (p : DelimitedReasoningParser) (best : ℕ) (suffix : List Char) :
    best ≤ p.improveSuffix best suffix := by
  unfold improveSuffix
  dsimp only
  split_ifs <;> omega

theorem length_le_improveSuffix (best : ℕ) (h : p.Grows text) :
    text.length ≤ p.improveSuffix best text := by
  unfold improveSuffix
  dsimp only
  rcases grows_iff.mp h with hstart | hend
  · rw [if_pos hstart]
    split_ifs <;> omega
  · rw [if_pos hend]
    omega

theorem improveSuffix_cases (p : DelimitedReasoningParser) (best : ℕ) (suffix : List Char) :
    p.improveSuffix best suffix = best ∨
      p.improveSuffix best suffix = suffix.length ∧ p.Grows suffix := by
  by_cases hgrows : p.Grows suffix
  · have hcases : p.improveSuffix best suffix = best ∨
        p.improveSuffix best suffix = suffix.length := by
      unfold improveSuffix
      dsimp only
      split_ifs <;> omega
    exact hcases.imp id fun heq => ⟨heq, hgrows⟩
  · left
    obtain ⟨hstart, hend⟩ := not_or.mp (mt grows_iff.mpr hgrows)
    unfold improveSuffix
    dsimp only
    rw [if_neg hend, if_neg hstart]

/-- The loop of `partial_suffix_len` keeps the longest suffix that may grow into a token. -/
theorem foldl_improveSuffix (p : DelimitedReasoningParser) (suffixes : List (List Char))
    (best : ℕ) :
    best ≤ suffixes.foldl p.improveSuffix best ∧ (∀ suffix ∈ suffixes, p.Grows suffix →
        suffix.length ≤ suffixes.foldl p.improveSuffix best) ∧
      (suffixes.foldl p.improveSuffix best = best ∨
        ∃ suffix ∈ suffixes, suffixes.foldl p.improveSuffix best = suffix.length ∧
          p.Grows suffix) := by
  induction suffixes generalizing best with
  | nil => exact ⟨le_refl best, by simp, .inl rfl⟩
  | cons suffix suffixes ih =>
    obtain ⟨hle, hmem, hcases⟩ := ih (p.improveSuffix best suffix)
    rw [foldl_cons]
    refine ⟨(p.le_improveSuffix best suffix).trans hle, ?_, ?_⟩
    · intro suffix' hsuffix' hgrows
      rcases mem_cons.mp hsuffix' with rfl | htail
      · exact (length_le_improveSuffix best hgrows).trans hle
      · exact hmem suffix' htail hgrows
    · rcases hcases with heq | ⟨suffix', htail, heq, hgrows⟩
      · rw [heq]
        rcases p.improveSuffix_cases best suffix with hbest | ⟨hlen, hgrows⟩
        · exact .inl hbest
        · exact .inr ⟨suffix, mem_cons_self, hlen, hgrows⟩
      · exact .inr ⟨suffix', mem_cons_of_mem _ htail, heq, hgrows⟩

/-- The suffixes that `partial_suffix_len` looks at: those after the first character and then
the whole text. -/
def suffixes (text : List Char) : List (List Char) :=
  ((List.range text.length).drop 1).map (fun idx => text.drop idx) ++ [text]

theorem partialSuffixLen_eq (p : DelimitedReasoningParser) (text : List Char) :
    p.partialSuffixLen text = (suffixes text).foldl p.improveSuffix 0 := by
  unfold partialSuffixLen suffixes
  rw [foldl_append]
  rfl

theorem mem_suffixes_of_lt {i : ℕ} (hi : i < text.length) : text.drop i ∈ suffixes text := by
  unfold suffixes
  cases i with
  | zero => simp
  | succ i =>
    apply mem_append_left
    refine mem_map.mpr ⟨i + 1, ?_, rfl⟩
    rw [range_eq_range', drop_range']
    simp only [mem_range'_1]
    omega

theorem isSuffix_of_mem_suffixes {suffix : List Char} (h : suffix ∈ suffixes text) :
    suffix <:+ text := by
  unfold suffixes at h
  rcases mem_append.mp h with h | h
  · obtain ⟨idx, -, rfl⟩ := mem_map.mp h
    exact drop_suffix idx text
  · rw [mem_singleton] at h
    exact h ▸ suffix_refl text

/-- What waits may grow into a token, and nothing longer at the end of the text may. -/
theorem partialSuffixLen_spec (p : DelimitedReasoningParser) (text : List Char) :
    p.partialSuffixLen text ≤ text.length ∧
      (p.partialSuffixLen text = 0 ∨ p.Grows (text.drop (text.length - p.partialSuffixLen text))) ∧
      ∀ i < text.length, p.Grows (text.drop i) → text.length - i ≤ p.partialSuffixLen text := by
  obtain ⟨-, hmem, hcases⟩ := p.foldl_improveSuffix (suffixes text) 0
  rw [← partialSuffixLen_eq] at hmem hcases
  have hlongest : ∀ i < text.length, p.Grows (text.drop i) →
      text.length - i ≤ p.partialSuffixLen text := by
    intro i hi hgrows
    rw [← length_drop]
    exact hmem _ (mem_suffixes_of_lt hi) hgrows
  rcases hcases with hzero | ⟨suffix, hsuffix, hlen, hgrows⟩
  · exact ⟨by omega, .inl hzero, hlongest⟩
  · have hsuf := isSuffix_of_mem_suffixes hsuffix
    refine ⟨hlen ▸ hsuf.length_le, .inr ?_, hlongest⟩
    rw [hlen, ← suffix_iff_eq_drop.mp hsuf]
    exact hgrows

/-! ### The whole stream -/

/-- No proper end of a token begins a token. -/
def Separate (startToken endToken : List Char) : Prop :=
  ∀ token ∈ [startToken, endToken], ∀ other ∈ [startToken, endToken], ∀ suffix,
    suffix <:+ token → suffix ≠ [] → suffix ≠ token → ¬ suffix <+: other

instance (startToken endToken : List Char) : Decidable (Separate startToken endToken) :=
  decidable_of_iff (∀ token ∈ [startToken, endToken], ∀ other ∈ [startToken, endToken],
    ∀ suffix ∈ token.tails, suffix ≠ [] → suffix ≠ token → ¬ suffix <+: other)
    (by simp only [Separate, mem_tails])

theorem Separate.closing (h : Separate p.startToken p.endToken) (mode mode' : Bool) {i : ℕ}
    (hi : 0 < i) (hlt : i < (p.closing mode).length) :
    ¬ (p.closing mode).drop i <+: p.closing mode' := by
  have hmem : ∀ mode, p.closing mode ∈ [p.startToken, p.endToken] := by
    intro mode
    cases mode <;> simp [DelimitedReasoningParser.closing, closingToken]
  apply h _ (hmem mode) _ (hmem mode') _ (drop_suffix i _)
  · rw [ne_eq, drop_eq_nil_iff]
    omega
  · intro heq
    have hlen := congrArg List.length heq
    rw [length_drop] at hlen
    omega

/-- Whatever comes next, no token stands across the place where the waiting text begins. -/
theorem cutAt_stable (hsep : Separate p.startToken p.endToken) (text rest : List Char) :
    CutAt p.closing (text ++ rest) (text.length - p.partialSuffixLen text) := by
  obtain ⟨hle, hwaits, hlongest⟩ := p.partialSuffixLen_spec text
  intro mode i hocc
  by_contra hacross
  push Not at hacross
  obtain ⟨hend, hstart⟩ := hacross
  by_cases hinside : i + (p.closing mode).length ≤ text.length
  · -- the token ends inside the waiting text: an end of it begins another token
    obtain ⟨mode', hgrows, -⟩ := hwaits.resolve_left (by omega)
    have hdrop := (hocc.of_append hinside).drop (text.length - p.partialSuffixLen text - i)
    rw [drop_drop, Nat.add_sub_cancel' (by omega)] at hdrop
    exact hsep.closing mode mode' (by omega) (by omega) (hdrop.trans hgrows)
  · -- the token goes on after the text: its beginning would wait as well
    have hi : i < text.length := by omega
    have hbegin : text.drop i <+: p.closing mode := by
      unfold OccursAt at hocc
      rw [drop_append_of_le_length hi.le] at hocc
      apply prefix_of_prefix_length_le (prefix_append _ _) hocc
      rw [length_drop]
      omega
    have hne : p.closing mode ≠ text.drop i := by
      intro heq
      have hlen := congrArg List.length heq
      rw [length_drop] at hlen
      omega
    have hwait := hlongest i hi ⟨mode, hbegin, hne⟩
    omega

/-- What a parser has read so far: `before` is split, and no token in any continuation stands
across the border to the buffer. -/
structure HasRead (p : DelimitedReasoningParser) (start : Bool) (before : List Char)
    (parts : Bool → List Char) : Prop where
  splits : Splits p.closing start before parts p.currentInReasoning
  cut : ∀ rest, CutAt p.closing (before ++ p.buffer ++ rest) before.length

variable {start : Bool} {before : List Char} {parts : Bool → List Char}

/-- One `push` moves stable text from the buffer to what has been read. -/
theorem HasRead.push (hsep : Separate p.startToken p.endToken) (h : HasRead p start before parts)
    (chunk : List Char) :
    ∃ stable buffer final, stable ++ buffer = p.buffer ++ chunk ∧
      (p.push chunk).1 = { p with buffer := buffer, currentInReasoning := final } ∧
      HasRead (p.push chunk).1 start (before ++ stable)
        (fun side => parts side ++ (p.push chunk).2.text side) := by
  let k := (p.buffer ++ chunk).length - p.partialSuffixLen (p.buffer ++ chunk)
  have hk : ((p.buffer ++ chunk).take k).length = k := by
    rw [length_take]
    exact min_eq_left (Nat.sub_le _ _)
  have hsplitAt := take_append_drop k (p.buffer ++ chunk)
  obtain ⟨final, hsplit, hp⟩ := parseStableText_spec
    { p with buffer := (p.buffer ++ chunk).drop k } ((p.buffer ++ chunk).take k)
  refine ⟨_, _, final, hsplitAt, hp, ?_⟩
  have hsplits : Splits p.closing start (before ++ (p.buffer ++ chunk).take k)
      (fun side => parts side ++ (p.push chunk).2.text side) final := by
    apply h.splits.append p.closing_ne_nil hsplit
    have hborder := h.cut chunk
    rw [append_assoc, ← hsplitAt, ← append_assoc] at hborder
    exact hborder.of_append p.closing_ne_nil
  have hcut : ∀ rest, CutAt p.closing
      (before ++ (p.buffer ++ chunk).take k ++ (p.buffer ++ chunk).drop k ++ rest)
      (before ++ (p.buffer ++ chunk).take k).length := by
    intro rest
    have hborder := h.cut (chunk ++ rest)
    rw [← append_assoc, append_assoc before, append_assoc before] at hborder
    have hnext := hborder.append (cutAt_stable hsep (p.buffer ++ chunk) rest)
    rw [length_append, hk, append_assoc before, hsplitAt, append_assoc before]
    exact hnext
  have hparser : (p.push chunk).1 =
      { p with buffer := (p.buffer ++ chunk).drop k, currentInReasoning := final } := hp
  rw [hparser]
  exact ⟨hsplits, hcut⟩

/-- Whatever the buffer holds at the end belongs to the mode the parser is in. -/
theorem HasRead.finish (h : HasRead p start before parts) :
    ∃ final, Splits p.closing start (before ++ p.buffer)
      (fun side => parts side ++ p.finish.2.text side) final := by
  obtain ⟨final, hsplit, -⟩ := parseStableText_spec { p with buffer := [] } p.buffer
  refine ⟨final, h.splits.append p.closing_ne_nil hsplit ?_⟩
  simpa using h.cut []

/-- From what has been read, the rest of the stream reads the buffer and the chunks. -/
theorem HasRead.stream (hsep : Separate p.startToken p.endToken)
    (h : HasRead p start before parts) (chunks : List (List Char)) :
    ∃ final, Splits p.closing start (before ++ p.buffer ++ chunks.flatten)
      (fun side => parts side ++ p.streamed chunks side) final := by
  induction chunks generalizing p before parts with
  | nil =>
    obtain ⟨final, hsplit⟩ := h.finish
    refine ⟨final, ?_⟩
    simpa [streamed, DelimitedReasoningParser.stream] using hsplit
  | cons chunk chunks ih =>
    obtain ⟨stable, buffer, final, htext, hp, hread⟩ := h.push hsep chunk
    obtain ⟨final', hsplit⟩ := ih (by rw [hp]; exact hsep) hread
    refine ⟨final', ?_⟩
    have hbuffer : before ++ stable ++ (p.push chunk).1.buffer ++ chunks.flatten =
        before ++ p.buffer ++ (chunk :: chunks).flatten := by
      rw [hp, append_assoc before, htext]
      simp
    have hclosing : (p.push chunk).1.closing = p.closing := by
      rw [hp]
      rfl
    rw [hbuffer, hclosing] at hsplit
    convert hsplit using 2 with side
    simp [streamed, DelimitedReasoningParser.stream]

/-- However the text is cut into chunks, the deltas concatenate to the split of the whole text. -/
theorem streamed_iff_splits (startToken endToken : List Char) (hstart : startToken ≠ [])
    (hend : endToken ≠ []) (hsep : Separate startToken endToken) (inReasoning : Bool)
    (chunks : List (List Char)) (parts : Bool → List Char) :
    (∃ final, Splits (closingToken startToken endToken) inReasoning chunks.flatten parts final) ↔
      (started startToken endToken hstart hend inReasoning).streamed chunks = parts := by
  let p := started startToken endToken hstart hend inReasoning
  have hread : HasRead p inReasoning [] (fun _ => []) := by
    constructor
    · have hlast : Splits p.closing inReasoning [] _ p.currentInReasoning :=
        .last (p.not_occursAt_nil inReasoning)
      simpa using hlast
    · intro rest mode i _
      exact .inr (Nat.zero_le i)
  obtain ⟨final, hsplit⟩ := hread.stream hsep chunks
  constructor
  · intro h
    obtain ⟨final', hsplit'⟩ := h
    exact (hsplit.unique hsplit').1
  · intro h
    subst h
    exact ⟨final, hsplit⟩

/-- Two modes and a `<` that waits to the end, the tokens cut by the chunks. -/
theorem streamed_iff_splits_cutTokens :
    (started "<t>".toList "</t>".toList (by decide) (by decide) false).streamed
      ["a<".toList, "t>b</".toList, "t>c<".toList] =
      fun side => if side then "b".toList else "ac<".toList := by
  apply (streamed_iff_splits "<t>".toList "</t>".toList (by decide) (by decide) (by decide) false
    _ _).mp
  have hlast : Splits (closingToken "<t>".toList "</t>".toList) false "c<".toList _ false :=
    .last ((find_eq_none_iff (by decide)).mp (by decide))
  have hreasoning : Splits (closingToken "<t>".toList "</t>".toList) true "b</t>c<".toList _
    false := .switch (i := 1) (by decide) (by decide) hlast
  have hcontent : Splits (closingToken "<t>".toList "</t>".toList) false "a<t>b</t>c<".toList _
    false := .switch (i := 1) (by decide) (by decide) hreasoning
  have hparts : (fun side => if side = true then "b".toList else "ac<".toList) = fun side =>
      (if side = false then ['a'] else []) ++ ((if side = true then ['b'] else []) ++
        if side = false then "c<".toList else []) := by
    funext side
    cases side <;> rfl
  rw [hparts]
  exact ⟨false, hcontent⟩

end DelimitedReasoningParser

end Vllm.Reasoning
