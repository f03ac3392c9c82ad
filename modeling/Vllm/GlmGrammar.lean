import Vllm.GlmXml

/-!
What a complete text contains for the GLM tool parser, without buffers: leading
text, calls that follow each other with nothing but whitespace between, and a
rest that is dropped. A call is hidden if it stands in the dropped rest behind
something that decides that no call follows.
-/
namespace Vllm.GlmXml

open MarkerSearch Winnow List

def skipWs (text : List Char) : List Char := text.dropWhile isMultispace

inductive Stage where
  | text
  | call
  | after
deriving DecidableEq

/-- The plain text and the calls of a complete text, read from a stage on with `n` calls
before it. -/
inductive Parses [Winnow] (cfg : Config) :
    Stage → ℕ → List Char → List Char → List ToolCallDelta → Prop
  | plain {n : ℕ} {t : List Char} (hnone : find toolCallStart t = none) : Parses cfg .text n t t []
  | start {n i : ℕ} {t u : List Char} {cs : List ToolCallDelta}
      (hfind : find toolCallStart t = some i)
      (h : Parses cfg .call n (t.drop (i + toolCallStart.length)) u cs) :
      Parses cfg .text n t (t.take i ++ u) cs
  | opened {n : ℕ} : Parses cfg .call n [] [] []
  | call {n i : ℕ} {t u name arguments : List Char} {rawParams : RawParams}
      {cs : List ToolCallDelta} (hfind : find toolCallEnd t = some i)
      (hbody : parseToolCallBody cfg.separator (t.take i) = .ok (.toolCall name rawParams))
      (hconvert : cfg.convert name rawParams = .ok arguments)
      (h : Parses cfg .after (n + 1) (t.drop (i + toolCallEnd.length)) u cs) :
      Parses cfg .call n t u (⟨n, some name, arguments⟩ :: cs)
  | next {n : ℕ} {t t' u : List Char} {cs : List ToolCallDelta}
      (hws : skipWs t = toolCallStart ++ t') (h : Parses cfg .call n t' u cs) :
      Parses cfg .after n t u cs
  | rest {n : ℕ} {t : List Char} (hrest : ¬ toolCallStart <+: skipWs t) :
      Parses cfg .after n t [] []

/-- In the rest after the calls stands a `<tool_call>` with something behind it, and what is
before it is neither blank nor a beginning of `<tool_call>`. -/
inductive Hidden : Stage → List Char → Prop
  | start {i : ℕ} {t : List Char} (hfind : find toolCallStart t = some i)
      (h : Hidden .call (t.drop (i + toolCallStart.length))) : Hidden .text t
  | call {i : ℕ} {t : List Char} (hfind : find toolCallEnd t = some i)
      (h : Hidden .after (t.drop (i + toolCallEnd.length))) : Hidden .call t
  | next {t t' : List Char} (hws : skipWs t = toolCallStart ++ t') (h : Hidden .call t') :
      Hidden .after t
  | rest {before tail : List Char} (hshort : ¬ toolCallStart <+: skipWs before)
      (hpart : ¬ skipWs before <+: toolCallStart) (htail : tail ≠ []) :
      Hidden .after (before ++ (toolCallStart ++ tail))

theorem toolCallStart_ne_nil : toolCallStart ≠ [] := by decide

theorem toolCallEnd_ne_nil : toolCallEnd ≠ [] := by decide

/-! ### Whitespace before a marker -/

theorem skipWs_append_of_ne_nil {t : List Char} (h : skipWs t ≠ []) (rest : List Char) :
    skipWs (t ++ rest) = skipWs t ++ rest := by
  unfold skipWs at h ⊢
  rw [List.dropWhile_append, if_neg (by rwa [List.isEmpty_iff])]

/-- Whitespace and the beginning of a marker, completed. -/
theorem skipWs_append_of_part {t more : List Char} (h : skipWs t ++ more = toolCallStart)
    (rest : List Char) : skipWs (t ++ (more ++ rest)) = toolCallStart ++ rest := by
  by_cases hblank : skipWs t = []
  · rw [hblank, nil_append] at h
    rw [h]
    unfold skipWs at hblank ⊢
    rw [dropWhile_append, hblank]
    rfl
  · rw [skipWs_append_of_ne_nil hblank, ← append_assoc, h]

/-- What is neither a start marker nor a beginning of one does not become one later. -/
theorem not_start_append {t : List Char} (hshort : ¬ toolCallStart <+: skipWs t)
    (hpart : ¬ skipWs t <+: toolCallStart) (rest : List Char) :
    ¬ toolCallStart <+: skipWs (t ++ rest) ∧ ¬ skipWs (t ++ rest) <+: toolCallStart := by
  have hne : skipWs t ≠ [] := by
    intro h
    rw [h] at hpart
    exact hpart nil_prefix
  rw [skipWs_append_of_ne_nil hne]
  constructor
  · intro h
    rcases prefix_or_prefix_of_prefix h (prefix_append (skipWs t) rest) with h' | h'
    · exact hshort h'
    · exact hpart h'
  · intro h
    exact hpart ((prefix_append _ _).trans h)

theorem skipWs_append_of_start {t t' : List Char} (h : skipWs t = toolCallStart ++ t')
    (rest : List Char) : skipWs (t ++ rest) = toolCallStart ++ (t' ++ rest) := by
  have hne : skipWs t ≠ [] := by
    rw [h]
    exact append_ne_nil_of_left_ne_nil toolCallStart_ne_nil _
  rw [skipWs_append_of_ne_nil hne, h, append_assoc]

theorem exists_before_start {t t' : List Char} (h : skipWs t = toolCallStart ++ t') :
    ∃ before, t = before ++ t' ∧ skipWs before = toolCallStart := by
  refine ⟨t.takeWhile isMultispace ++ toolCallStart, ?_, ?_⟩
  · rw [append_assoc, ← h]
    exact (takeWhile_append_dropWhile).symm
  · have hblank : (t.takeWhile isMultispace).dropWhile isMultispace = [] :=
      dropWhile_eq_nil_iff.mpr fun _ hc => mem_takeWhile_imp hc
    unfold skipWs
    rw [dropWhile_append, hblank]
    rfl

/-! ### What a text contains -/

variable {cfg : Config} {n i : ℕ} {t u : List Char} {cs : List ToolCallDelta}

section
variable [Winnow]

theorem parses_after_of_not_start (hrest : ¬ toolCallStart <+: skipWs t) :
    Parses cfg .after n t u cs ↔ u = [] ∧ cs = [] := by
  constructor
  · intro h
    cases h with
    | next hws _ => exact absurd ⟨_, hws.symm⟩ hrest
    | rest => exact ⟨rfl, rfl⟩
  · intro h
    obtain ⟨rfl, rfl⟩ := h
    exact .rest hrest

theorem parses_after_of_start {t' : List Char} (hws : skipWs t = toolCallStart ++ t') :
    Parses cfg .after n t u cs ↔ Parses cfg .call n t' u cs := by
  constructor
  · intro h
    cases h with
    | next hws' h =>
      rw [hws] at hws'
      rwa [append_cancel_left hws']
    | rest hrest => exact absurd ⟨t', hws.symm⟩ hrest
  · exact .next hws

theorem parses_call_of_find {name arguments : List Char} {rawParams : RawParams}
    (hfind : find toolCallEnd t = some i)
    (hbody : parseToolCallBody cfg.separator (t.take i) = .ok (.toolCall name rawParams))
    (hconvert : cfg.convert name rawParams = .ok arguments) :
    Parses cfg .call n t u cs ↔ ∃ ds, cs = ⟨n, some name, arguments⟩ :: ds ∧
      Parses cfg .after (n + 1) (t.drop (i + toolCallEnd.length)) u ds := by
  constructor
  · intro h
    cases h with
    | opened => cases hfind
    | call hfind' hbody' hconvert' h =>
      cases hfind.symm.trans hfind'
      cases hbody.symm.trans hbody'
      cases hconvert.symm.trans hconvert'
      exact ⟨_, rfl, h⟩
  · intro h
    obtain ⟨ds, rfl, h⟩ := h
    exact .call hfind hbody hconvert h

/-- A call that is found has a body that parses. -/
theorem Parses.body_of_find (h : Parses cfg .call n t u cs) (hfind : find toolCallEnd t = some i) :
    ∃ name rawParams arguments,
      parseToolCallBody cfg.separator (t.take i) = .ok (.toolCall name rawParams) ∧
        cfg.convert name rawParams = .ok arguments := by
  cases h with
  | opened => cases hfind
  | call hfind' hbody hconvert _ =>
    cases hfind.symm.trans hfind'
    exact ⟨_, _, _, hbody, hconvert⟩

theorem parses_call_of_not_find (hnone : find toolCallEnd t = none) :
    Parses cfg .call n t u cs ↔ t = [] ∧ u = [] ∧ cs = [] := by
  constructor
  · intro h
    cases h with
    | opened => exact ⟨rfl, rfl, rfl⟩
    | call hfind => exact absurd (hnone.symm.trans hfind) (by simp)
  · intro h
    obtain ⟨rfl, rfl, rfl⟩ := h
    exact .opened

theorem parses_text_of_find (hfind : find toolCallStart t = some i) :
    Parses cfg .text n t u cs ↔ ∃ v, u = t.take i ++ v ∧
      Parses cfg .call n (t.drop (i + toolCallStart.length)) v cs := by
  constructor
  · intro h
    cases h with
    | plain hnone => exact absurd (hnone.symm.trans hfind) (by simp)
    | start hfind' h =>
      cases hfind.symm.trans hfind'
      exact ⟨_, rfl, h⟩
  · intro h
    obtain ⟨v, rfl, h⟩ := h
    exact .start hfind h

theorem parses_text_of_not_find (hnone : find toolCallStart t = none) :
    Parses cfg .text n t u cs ↔ u = t ∧ cs = [] := by
  constructor
  · intro h
    cases h with
    | plain => exact ⟨rfl, rfl⟩
    | start hfind => exact absurd (hnone.symm.trans hfind) (by simp)
  · intro h
    obtain ⟨rfl, rfl⟩ := h
    exact .plain hnone

/-- Text in which no call starts can be given out before the rest is known. -/
theorem parses_text_drop {len : ℕ} (hocc : ∀ i, OccursAt toolCallStart t i → len ≤ i) :
    Parses cfg .text n t u cs ↔
      ∃ v, u = t.take len ++ v ∧ Parses cfg .text n (t.drop len) v cs := by
  have hdrop := find_drop toolCallStart_ne_nil hocc
  cases hfind : find toolCallStart t with
  | none =>
    rw [hfind] at hdrop
    rw [parses_text_of_not_find hfind]
    constructor
    · intro h
      obtain ⟨rfl, rfl⟩ := h
      exact ⟨_, (take_append_drop len u).symm, .plain hdrop⟩
    · intro h
      obtain ⟨v, rfl, h⟩ := h
      obtain ⟨rfl, rfl⟩ := (parses_text_of_not_find hdrop).mp h
      exact ⟨take_append_drop len t, rfl⟩
  | some i =>
    rw [hfind] at hdrop
    have hle : len ≤ i := hocc i ((find_eq_some_iff toolCallStart_ne_nil).mp hfind).1
    have htake : t.take i = t.take len ++ (t.drop len).take (i - len) := by
      rw [← take_add, Nat.add_sub_cancel' hle]
    have hrest : (t.drop len).drop (i - len + toolCallStart.length) =
        t.drop (i + toolCallStart.length) := by
      rw [drop_drop]
      congr 1
      omega
    rw [parses_text_of_find hfind]
    simp only [parses_text_of_find hdrop, hrest, htake, append_assoc]
    constructor
    · intro h
      obtain ⟨v, rfl, h⟩ := h
      exact ⟨_, rfl, v, rfl, h⟩
    · intro h
      obtain ⟨_, rfl, v, rfl, h⟩ := h
      exact ⟨v, rfl, h⟩

/-- Calls are numbered one after the other. -/
theorem Parses.map_toolIndex {s : Stage} (h : Parses cfg s n t u cs) :
    cs.map ToolCallDelta.toolIndex = List.range' n cs.length := by
  induction h with
  | plain | opened | rest => rfl
  | start _ _ ih => exact ih
  | call _ _ _ _ ih => rw [map_cons, ih, length_cons, range'_succ]
  | next _ _ ih => exact ih
end

/-! ### A call in the dropped rest -/

theorem hidden_text_of_find (hfind : find toolCallStart t = some i) :
    Hidden .text t ↔ Hidden .call (t.drop (i + toolCallStart.length)) := by
  constructor
  · intro h
    cases h with
    | start hfind' h =>
      cases hfind.symm.trans hfind'
      exact h
  · exact .start hfind

theorem hidden_call_of_find (hfind : find toolCallEnd t = some i) :
    Hidden .call t ↔ Hidden .after (t.drop (i + toolCallEnd.length)) := by
  constructor
  · intro h
    cases h with
    | call hfind' h =>
      cases hfind.symm.trans hfind'
      exact h
  · exact .call hfind

theorem hidden_after_of_start {t' : List Char} (hws : skipWs t = toolCallStart ++ t') :
    Hidden .after t ↔ Hidden .call t' := by
  constructor
  · intro h
    cases h with
    | next hws' h =>
      rw [hws] at hws'
      rwa [append_cancel_left hws']
    | rest hshort hpart =>
      exact absurd ⟨t', hws.symm⟩ (not_start_append hshort hpart _).1
  · exact .next hws

theorem hidden_text_drop {len : ℕ} (hocc : ∀ i, OccursAt toolCallStart t i → len ≤ i) :
    Hidden .text t ↔ Hidden .text (t.drop len) := by
  have hdrop := find_drop toolCallStart_ne_nil hocc
  cases hfind : find toolCallStart t with
  | none =>
    rw [hfind] at hdrop
    constructor
    · intro h
      cases h with
      | start hfind' => exact absurd (hfind.symm.trans hfind') (by simp)
    · intro h
      cases h with
      | start hfind' => exact absurd (hdrop.symm.trans hfind') (by simp)
  | some i =>
    rw [hfind] at hdrop
    have hle : len ≤ i := hocc i ((find_eq_some_iff toolCallStart_ne_nil).mp hfind).1
    rw [hidden_text_of_find hfind, hidden_text_of_find hdrop, drop_drop]
    have hsum : len + (i - len + toolCallStart.length) = i + toolCallStart.length := by omega
    rw [hsum]

theorem Hidden.ne_nil_of_call (h : Hidden .call t) : t ≠ [] := by
  cases h with
  | call hfind =>
    rintro rfl
    cases hfind

theorem not_hidden_nil : ¬ Hidden .after [] := by
  intro h
  generalize ht : ([] : List Char) = t at h
  cases h with
  | next hws _ =>
    rw [← ht] at hws
    cases hws
  | rest => simp [toolCallStart] at ht

section
variable {b rest : List Char} (hshort : ¬ toolCallStart <+: skipWs b)
  (hpart : ¬ skipWs b <+: toolCallStart)

include hshort hpart

/-- A call that becomes visible once `b` is dropped was hidden behind it. -/
theorem hidden_of_start {t' : List Char} (hws : skipWs rest = toolCallStart ++ t')
    (htail : t' ≠ []) : Hidden .after (b ++ rest) := by
  have hsplit : rest = rest.takeWhile isMultispace ++ (toolCallStart ++ t') := by
    rw [← hws]
    exact takeWhile_append_dropWhile.symm
  obtain ⟨hshort', hpart'⟩ := not_start_append hshort hpart (rest.takeWhile isMultispace)
  rw [hsplit, ← append_assoc]
  exact .rest hshort' hpart' htail

/-- Text in front of a hidden call leaves it hidden. -/
theorem hidden_of_dropped (h : Hidden .after rest) : Hidden .after (b ++ rest) := by
  cases h with
  | next hws h => exact hidden_of_start hshort hpart hws h.ne_nil_of_call
  | @rest before tail _ _ htail =>
    obtain ⟨hshort', hpart'⟩ := not_start_append hshort hpart before
    rw [← append_assoc]
    exact .rest hshort' hpart' htail

/-- If nothing is hidden in the text, there is nothing to read in what follows the ignored part. -/
theorem parses_of_dropped [Winnow] (h : ¬ Hidden .after (b ++ rest)) :
    Parses cfg .after n rest [] [] := by
  by_cases hstart : toolCallStart <+: skipWs rest
  · obtain ⟨t', ht'⟩ := hstart
    by_cases htail : t' = []
    · subst htail
      exact .next ht'.symm .opened
    · exact absurd (hidden_of_start hshort hpart ht'.symm htail) h
  · exact .rest hstart
end

/-- A hidden call cuts the text in two: what is before it contains the whole result,
whatever follows. -/
theorem Hidden.exists_cut [Winnow] {s : Stage} (hh : Hidden s t) (h : Parses cfg s n t u cs) :
    ∃ p tail, t = p ++ (toolCallStart ++ tail) ∧ tail ≠ [] ∧
      ∀ rest, Parses cfg s n (p ++ rest) u cs := by
  induction hh generalizing n u cs with
  | @start i t hfind _ ih =>
    obtain ⟨v, rfl, hcall⟩ := (parses_text_of_find hfind).mp h
    obtain ⟨p, tail, hp, htail, hall⟩ := ih hcall
    have hle := ((find_eq_some_iff toolCallStart_ne_nil).mp hfind).1.add_le toolCallStart_ne_nil
    have hlen : (t.take (i + toolCallStart.length)).length = i + toolCallStart.length :=
      length_take_of_le hle
    refine ⟨t.take (i + toolCallStart.length) ++ p, tail, ?_, htail, ?_⟩
    · rw [append_assoc, ← hp, take_append_drop]
    · intro rest
      rw [append_assoc]
      have hfind' := find_take_append toolCallStart_ne_nil hfind (p ++ rest)
      refine (parses_text_of_find hfind').mpr ⟨v, ?_, ?_⟩
      · rw [take_append_of_le_length (by omega), take_take, Nat.min_eq_left (by omega)]
      · rw [drop_left' hlen]
        exact hall rest
  | @call i t hfind _ ih =>
    cases h with
    | opened => cases hfind
    | call hfind' hbody hconvert h =>
      cases hfind.symm.trans hfind'
      obtain ⟨p, tail, hp, htail, hall⟩ := ih h
      have hle := ((find_eq_some_iff toolCallEnd_ne_nil).mp hfind).1.add_le toolCallEnd_ne_nil
      have hlen : (t.take (i + toolCallEnd.length)).length = i + toolCallEnd.length :=
        length_take_of_le hle
      refine ⟨t.take (i + toolCallEnd.length) ++ p, tail, ?_, htail, ?_⟩
      · rw [append_assoc, ← hp, take_append_drop]
      · intro rest
        rw [append_assoc]
        refine .call (find_take_append toolCallEnd_ne_nil hfind (p ++ rest)) ?_ hconvert ?_
        · rw [take_append_of_le_length (by omega), take_take, Nat.min_eq_left (by omega)]
          exact hbody
        · rw [drop_left' hlen]
          exact hall rest
  | @next t t' hws _ ih =>
    obtain ⟨p, tail, hp, htail, hall⟩ := ih ((parses_after_of_start hws).mp h)
    obtain ⟨before, rfl, hbefore⟩ := exists_before_start hws
    refine ⟨before ++ p, tail, by rw [append_assoc, ← hp], htail, ?_⟩
    intro rest
    have hws' : skipWs (before ++ (p ++ rest)) = toolCallStart ++ (p ++ rest) := by
      rw [skipWs_append_of_ne_nil (by rw [hbefore]; exact toolCallStart_ne_nil), hbefore]
    rw [append_assoc]
    exact .next hws' (hall rest)
  | @rest before tail hshort hpart htail =>
    obtain ⟨rfl, rfl⟩ := (parses_after_of_not_start (not_start_append hshort hpart _).1).mp h
    exact ⟨before, tail, rfl, htail, fun rest => .rest (not_start_append hshort hpart rest).1⟩

end Vllm.GlmXml
