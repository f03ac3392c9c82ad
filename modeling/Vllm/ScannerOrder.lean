import Mathlib.Data.List.Nodup
import Vllm.ScannerMarks

/-!
Special tokens in order and in place when text lags behind token ids. The books
of a stream are a cut in its text: everything before it has gone out, with all
special tokens that stand there; the next one is deferred and has not fully
arrived. Every scan moves the cut on. Two things break the books and are ruled
out: a delta whose text is not complete names two special tokens with one text,
or its text ends inside the text of a dropped token.
-/
namespace Vllm.TokenScanner

open MarkerSearch List Mark

variable {W : List Char} {e x y : ℕ} {m : Mark} {d f j ms : List Mark}
  (items items' : List LexerInput) (t : PreLexedTerminal) (text : List Char) (cfg : Config)
  (accum : List Char)

theorem joinDecodedText_append :
    joinDecodedText (items ++ items') = joinDecodedText items ++ joinDecodedText items' :=
  flatMap_append ..

theorem terminalsOf_append :
    terminalsOf (items ++ items') = terminalsOf items ++ terminalsOf items' :=
  filterMap_append ..

@[simp]
theorem joinDecodedText_chunk : joinDecodedText (chunk text) = text := by
  unfold chunk
  split_ifs with h
  · rw [h]
    rfl
  · simp [joinDecodedText, LexerInput.text]

@[simp]
theorem terminalsOf_chunk : terminalsOf (chunk text) = [] := by
  unfold chunk
  split_ifs
  · rfl
  · rfl

@[simp]
theorem joinDecodedText_terminal (items : List LexerInput) :
    joinDecodedText (.terminal t :: items) = t.text ++ joinDecodedText items := rfl

@[simp]
theorem terminalsOf_terminal (items : List LexerInput) :
    terminalsOf (.terminal t :: items) = t :: terminalsOf items := rfl

/-- Items that carry the text from `e` to `e'` and the terminals of the marks. -/
structure Carry (W : List Char) (e e' : ℕ) (ms : List Mark) (items : List LexerInput) : Prop where
  le : e ≤ e'
  text : joinDecodedText items = window W e e'
  terminals : terminalsOf items = ms.map Mark.terminal

theorem carry_nil : Carry W e e [] [] := ⟨le_rfl, window_self.symm, rfl⟩

/-- Items that carry text and terminals can be put behind one another. -/
theorem Carry.append {e₁ e₂ e₃ : ℕ} {ms₁ ms₂ : List Mark} {items₁ items₂ : List LexerInput}
    (h₁ : Carry W e₁ e₂ ms₁ items₁) (h₂ : Carry W e₂ e₃ ms₂ items₂) :
    Carry W e₁ e₃ (ms₁ ++ ms₂) (items₁ ++ items₂) := by
  refine ⟨h₁.le.trans h₂.le, ?_, ?_⟩
  · rw [joinDecodedText_append, h₁.text, h₂.text, window_append h₁.le h₂.le]
  · rw [terminalsOf_append, h₁.terminals, h₂.terminals, map_append]

theorem carry_chunk {e' : ℕ} (h : e ≤ e') : Carry W e e' [] (chunk (window W e e')) :=
  ⟨h, joinDecodedText_chunk _, terminalsOf_chunk _⟩

/-- The text up to a mark, and the special token there. -/
theorem carry_mark (hle : e ≤ m.pos) (hocc : OccursAt m.text W m.pos) :
    Carry W e m.stop [m] (chunk (window W e m.pos) ++ [.terminal m.terminal]) := by
  have htext : window W m.pos m.stop = m.text := by
    unfold window Mark.stop
    rw [drop_take, Nat.add_sub_cancel_left]
    obtain ⟨rest, hrest⟩ := hocc
    rw [← hrest, take_left]
  have hmark : Carry W m.pos m.stop [m] [.terminal m.terminal] := by
    refine ⟨Nat.le_add_right _ _, ?_, rfl⟩
    rw [htext]
    exact append_nil _
  exact (carry_chunk hle).append hmark

/-! ### Deferred terminals -/

theorem resolveDeferred_nil {deferred : List PreLexedTerminal}
    (hne : ∀ t ∈ deferred, t.text ≠ []) :
    resolveDeferred deferred [] = ([], ⟨deferred, []⟩, []) := by
  induction deferred with
  | nil => rfl
  | cons t deferred ih =>
    have hnone : find t.text [] = none := if_neg (hne t mem_cons_self)
    rw [resolveDeferred, hnone, ih fun t' ht' => hne t' (mem_cons_of_mem _ ht')]
    rfl

/-- What is left when the deferred terminals have been looked for in the text up to `x`: all
are found and the rest of the text goes on, or the first of `b` is missing and the text waits
with it. -/
structure Resolved (W : List Char) (e x : ℕ) (b f : List Mark) (s : Scanner)
    (rest : List Char) : Prop where
  cut_le : e ≤ x
  marked : Marked W e (b ++ f)
  deferred : s.deferredTerminals = b.map Mark.terminal
  missing : ∀ m ∈ b.head?, x < m.stop
  found : b = [] → s.deferredPostText = [] ∧ rest = window W e x
  waits : b ≠ [] → s.deferredPostText = window W e x ∧ rest = []

/-- The deferred terminals whose text has arrived are resolved; the rest is deferred again
with the text behind the last of them. -/
theorem resolveDeferred_spec (hmarked : Marked W e (d ++ f)) (hx : x ≤ W.length) (hex : e ≤ x) :
    ∃ e' a b items s rest, resolveDeferred (d.map Mark.terminal) (window W e x) = (items, s, rest) ∧
      d = a ++ b ∧ Carry W e e' a items ∧ (∀ k, e ≤ k → (∀ m ∈ d, m.stop ≤ k) → e' ≤ k) ∧
      Resolved W e' x b f s rest := by
  induction d generalizing e with
  | nil =>
    refine ⟨e, [], [], _, _, _, rfl, rfl, carry_nil, fun _ h _ => h, hex, hmarked, rfl, ?_,
      fun _ => ⟨rfl, rfl⟩, ?_⟩
    · intro m hm
      cases hm
    · intro h
      exact absurd rfl h
  | cons m d ih =>
    obtain ⟨hle, hne, hspaced⟩ := hmarked.spaced
    have hfind := hmarked.find_head hx
    by_cases harrived : m.stop ≤ x
    · -- the first one is found at its place
      obtain ⟨e', a, b, items, s, rest, hrun, rfl, hcarry, hbound, hresolved⟩ :=
        ih hmarked.tail harrived
      have hocc : OccursAt m.text W m.pos :=
        (hmarked.occurs_iff m mem_cons_self _ hle).mpr ⟨m, mem_cons_self, rfl, rfl⟩
      have hrest : (window W e x).drop (m.pos - e + m.text.length) = window W m.stop x := by
        have hsum : m.pos - e + m.text.length = m.stop - e := by
          unfold Mark.stop
          omega
        have hstop : e ≤ m.stop := hle.trans (Nat.le_add_right _ _)
        rw [hsum, window_drop hstop]
      have hfirst : (window W e x).take (m.pos - e) = window W e m.pos :=
        window_take ((Nat.le_add_right _ _).trans harrived)
      rw [if_pos harrived] at hfind
      refine ⟨e', m :: a, b, _, _, _, ?_, rfl, (carry_mark hle hocc).append hcarry,
        fun k _ hk => hbound k (hk m mem_cons_self) fun m' hm' =>
          hk m' (mem_cons_of_mem m hm'), hresolved⟩
      rw [map_cons, resolveDeferred]
      unfold Mark.text at hfind hrest
      rw [hfind]
      dsimp only
      rw [hrest, hrun, hfirst, append_assoc]
      rfl
    · rw [if_neg harrived] at hfind
      have hne' : ∀ t ∈ d.map Mark.terminal, t.text ≠ [] := by
        intro t ht
        obtain ⟨m', hm', rfl⟩ := mem_map.mp ht
        exact hmarked.spaced.ne_nil (mem_append_left f (mem_cons_of_mem m hm'))
      refine ⟨e, [], m :: d, [], ⟨(m :: d).map Mark.terminal, window W e x⟩, [], ?_, rfl, carry_nil,
        fun _ h _ => h, hex, hmarked, rfl, ?_, ?_, fun _ => ⟨rfl, rfl⟩⟩
      · rw [map_cons, resolveDeferred]
        unfold Mark.text at hfind
        rw [hfind]
        dsimp only
        rw [resolveDeferred_nil hne', append_nil]
      · intro m' hm'
        cases hm'
        exact Nat.lt_of_not_le harrived
      · intro h
        cases h

/-! ### The tokens of a delta -/

/-- Grouping loses no text. -/
theorem groupTokens_text (tids : List ℕ) :
    joinDecodedText (groupTokens cfg accum tids) = accum ++ decode cfg tids := by
  induction tids generalizing accum with
  | nil =>
    rw [groupTokens, joinDecodedText_chunk]
    exact (append_nil accum).symm
  | cons tid tids ih =>
    rw [groupTokens, decode, flatMap_cons]
    cases h : preLexed cfg tid with
    | none =>
      dsimp only
      rw [ih, append_assoc]
      rfl
    | some t =>
      dsimp only
      rw [joinDecodedText_append, joinDecodedText_chunk, joinDecodedText_terminal, ih,
        text_of_preLexed h, nil_append]
      rfl

/-- Grouping keeps every special token, in order. -/
theorem groupTokens_terminals (start : ℕ) (tids : List ℕ) :
    terminalsOf (groupTokens cfg accum tids) = (marksFrom cfg start tids).map Mark.terminal := by
  induction tids generalizing accum start with
  | nil =>
    rw [groupTokens, terminalsOf_chunk]
    rfl
  | cons tid tids ih =>
    rw [groupTokens, marksFrom]
    cases h : preLexed cfg tid with
    | none => exact ih _ _
    | some t =>
      dsimp only
      rw [terminalsOf_append, terminalsOf_chunk, terminalsOf_terminal,
        ih [] (start + (cfg.decodeToken tid).length)]
      rfl

/-! ### Anchors -/

section
/-- Each marked text occurs in the window exactly at its mark, if it has arrived. -/
def Alone (W : List Char) (e x : ℕ) (ms : List Mark) : Prop :=
  ∀ m ∈ ms, ∀ q, OccursAt m.text (window W e x) q ↔ e + q = m.pos ∧ m.stop ≤ x

/-- Marks with different texts are found where they are. -/
theorem alone_of_nodup (hmarked : Marked W e (j ++ f)) (hx : x ≤ W.length)
    (hfuture : ∀ m ∈ f, x ≤ m.pos) (hnodup : (j.map Mark.text).Nodup) : Alone W e x j := by
  intro m hm q
  have hne : m.text ≠ [] := hmarked.spaced.ne_nil (mem_append_left f hm)
  rw [occursAt_window hne hx,
    hmarked.occurs_iff m (mem_append_left f hm) (e + q) (Nat.le_add_right e q)]
  constructor
  · intro h
    obtain ⟨⟨m', hm', hpos, htext⟩, hend⟩ := h
    have hlen := length_pos_iff.mpr hne
    have hmem : m' ∈ j := by
      cases mem_append.mp hm' with
      | inl h => exact h
      | inr h =>
        have hge := hfuture m' h
        omega
    have hsame : m' = m := inj_on_of_nodup_map hnodup hmem hm htext
    subst hsame
    refine ⟨hpos.symm, ?_⟩
    unfold Mark.stop
    omega
  · intro h
    refine ⟨⟨m, mem_append_left f hm, h.1.symm, rfl⟩, ?_⟩
    have hstop := h.2
    unfold Mark.stop at hstop
    omega

def placeOf (e x : ℕ) (m : Mark) : Option ℕ := if m.stop ≤ x then some (m.pos - e) else none

/-- The search from the right binds every anchor that has arrived to its mark. -/
theorem anchorPositions_spec (hx : x ≤ W.length) (hex : e ≤ x) (hspaced : Spaced e ms)
    (halone : Alone W e x ms) :
    (anchorPositions (window W e x) (ms.map Mark.terminal)).1 = ms.map (placeOf e x) ∧
      ∀ k ≤ x, (∀ m ∈ ms, k ≤ m.pos) →
        k ≤ e + (anchorPositions (window W e x) (ms.map Mark.terminal)).2 := by
  induction ms with
  | nil =>
    refine ⟨rfl, fun k hk _ => ?_⟩
    rw [map_nil, anchorPositions, window_length hx]
    omega
  | cons m ms ih =>
    obtain ⟨hle, hne, hrest⟩ := hspaced
    have hstop : ∀ m' ∈ ms, m.stop ≤ m'.pos := fun m' hm' => hrest.le_pos hm'
    have hlt := pos_lt_stop hne
    obtain ⟨hpositions, hbound⟩ := ih (hrest.mono fun m' hm' => by have := hstop m' hm'; omega)
      fun m' hm' => halone m' (mem_cons_of_mem m hm')
    obtain ⟨positions, searchEnd, hrec⟩ : ∃ positions searchEnd,
        anchorPositions (window W e x) (ms.map Mark.terminal) = (positions, searchEnd) :=
      ⟨_, _, rfl⟩
    rw [hrec] at hpositions hbound
    have hwhole := halone m mem_cons_self
    have hpart : ∀ q, OccursAt m.text ((window W e x).take searchEnd) q →
        e + q = m.pos ∧ m.stop ≤ x := by
      intro q hq
      apply (hwhole q).mp
      rw [← take_append_drop searchEnd (window W e x)]
      exact hq.append hne _
    rw [map_cons, anchorPositions, hrec]
    by_cases harrived : m.stop ≤ x
    · have hend := hbound m.stop harrived hstop
      have hlen : (m.pos - e) + m.text.length = m.stop - e := by
        unfold Mark.stop
        omega
      have hocc : OccursAt m.text ((window W e x).take searchEnd) (m.pos - e) := by
        have hocc := (hwhole (m.pos - e)).mpr ⟨Nat.add_sub_cancel' hle, harrived⟩
        rw [← take_append_drop searchEnd (window W e x)] at hocc
        apply hocc.of_append
        rw [hlen, length_take, window_length hx]
        exact le_min (by omega) (by omega)
      have hrfind : rfind m.terminal.text (window W e x) searchEnd = some (m.pos - e) := by
        apply rfind_eq_some hocc
        · intro q hq
          have hq' := (hpart q hq).1
          omega
        · rw [window_length hx]
          omega
      dsimp only
      rw [hrfind]
      refine ⟨?_, fun k _ hk => ?_⟩
      · rw [map_cons, ← hpositions, placeOf, if_pos harrived]
      · have hk' := hk m mem_cons_self
        dsimp only
        omega
    · have hrfind : rfind m.terminal.text (window W e x) searchEnd = none := by
        apply rfind_eq_none
        intro q hq
        exact harrived (hpart q hq).2
      dsimp only
      rw [hrfind]
      refine ⟨?_, fun k hk hk' => hbound k hk fun m' hm' => hk' m' (mem_cons_of_mem m hm')⟩
      rw [map_cons, ← hpositions, placeOf, if_neg harrived]

/-- Anchors that have not arrived are deferred in order. The text left goes out only if all
their tokens are dropped ones. -/
theorem placeAnchors_missing {deltaText : List Char} {consumed : ℕ} {s : Scanner}
    (hms : ∀ m ∈ ms, x < m.stop) (hconsumed : consumed ≤ deltaText.length) :
    ∃ items post, placeAnchors deltaText ((ms.map Mark.terminal).zip (ms.map (placeOf e x)))
        consumed s = (items, ⟨s.deferredTerminals ++ ms.map Mark.terminal,
          s.deferredPostText ++ post⟩) ∧
      ((items = chunk (deltaText.drop consumed) ∧ post = [] ∧
          ((∀ m ∈ ms, m.terminal.terminal = .drop) ∨ consumed = deltaText.length)) ∨
        (items = [] ∧ post = deltaText.drop consumed ∧ ms ≠ [])) := by
  induction ms generalizing consumed s with
  | nil =>
    refine ⟨_, [], ?_, .inl ⟨rfl, rfl, .inl ?_⟩⟩
    · simp [placeAnchors]
    · intro m hm
      cases hm
  | cons m ms ih =>
    have hms' : ∀ m' ∈ ms, x < m'.stop := fun m' hm' => hms m' (mem_cons_of_mem m hm')
    have hplace : placeOf e x m = none := if_neg (Nat.not_le_of_lt (hms m mem_cons_self))
    have hlater : ∀ later ∈ (ms.map Mark.terminal).zip (ms.map (placeOf e x)), later.2 = none := by
      intro later hmem
      obtain ⟨m', hm', hlater⟩ := mem_map.mp (of_mem_zip hmem).2
      rw [← hlater]
      exact if_neg (Nat.not_le_of_lt (hms' m' hm'))
    rw [map_cons, map_cons, hplace, zip_cons_cons, placeAnchors]
    dsimp only [Option.filter_none]
    by_cases hpark : consumed < deltaText.length ∧ m.terminal.terminal ≠ .drop
    · rw [if_pos ⟨hlater, hpark⟩]
      obtain ⟨items, post, hrun, hcases⟩ := ih hms' le_rfl
        (s := ⟨s.deferredTerminals ++ [m.terminal], s.deferredPostText ++ deltaText.drop consumed⟩)
      have hempty : items = [] ∧ post = [] := by
        rw [drop_length] at hcases
        rcases hcases with ⟨rfl, rfl, -⟩ | ⟨rfl, rfl, -⟩
        · exact ⟨rfl, rfl⟩
        · exact ⟨rfl, rfl⟩
      refine ⟨items, deltaText.drop consumed ++ post, ?_, .inr ⟨hempty.1, ?_, cons_ne_nil _ _⟩⟩
      · rw [hrun, append_assoc, append_assoc]
        rfl
      · rw [hempty.2, append_nil]
    · rw [if_neg fun h => hpark h.2]
      obtain ⟨items, post, hrun, hcases⟩ := ih hms' hconsumed
        (s := ⟨s.deferredTerminals ++ [m.terminal], s.deferredPostText⟩)
      refine ⟨items, post, ?_, ?_⟩
      · rw [hrun, append_assoc]
        rfl
      · rcases hcases with ⟨hitems, hpost, hwhy⟩ | ⟨hitems, hpost, -⟩
        · refine Or.inl ⟨hitems, hpost, ?_⟩
          by_cases hend : consumed = deltaText.length
          · exact .inr hend
          · refine Or.inl ?_
            intro m' hm'
            cases hm' with
            | head =>
              by_contra hdrop
              exact hpark ⟨by omega, hdrop⟩
            | tail _ hm' => exact hwhy.resolve_right hend m' hm'
        · exact .inr ⟨hitems, hpost, cons_ne_nil _ _⟩

/-- The anchors that have arrived go to their places; `a` are those. -/
theorem placeAnchors_spec {s : Scanner} {e₀ : ℕ} (hx : x ≤ W.length) (hle : e₀ ≤ e) (hex : e ≤ x)
    (hmarked : Marked W e (j ++ f)) (hfuture : ∀ m ∈ f, x ≤ m.pos)
    (hdrop : ∀ m ∈ j, m.terminal.terminal = .drop → x < m.stop → x ≤ m.pos) :
    ∃ e' a b items post, placeAnchors (window W e₀ x)
        ((j.map Mark.terminal).zip (j.map (placeOf e₀ x))) (e - e₀) s =
          (items, ⟨s.deferredTerminals ++ b.map Mark.terminal, s.deferredPostText ++ post⟩) ∧
      j = a ++ b ∧ Carry W e e' a items ∧ e' ≤ x ∧ Marked W e' (b ++ f) ∧ post = window W e' x ∧
      (∀ m ∈ b, x < m.stop) ∧ (b = [] → e' = x) := by
  induction j generalizing e with
  | nil =>
    refine ⟨x, [], [], _, [], ?_, rfl, carry_chunk hex, le_rfl, ?_, window_self.symm, ?_,
      fun _ => rfl⟩
    · rw [map_nil, map_nil, zip_nil_left, placeAnchors, window_drop hle,
        append_nil, append_nil]
    · exact hmarked.advance hex hfuture
    · intro m hm
      cases hm
  | cons m j ih =>
    obtain ⟨hpos, hne, hrest⟩ := hmarked.spaced
    have hlt := pos_lt_stop hne
    by_cases harrived : m.stop ≤ x
    · obtain ⟨e', a, b, items, post, hrun, rfl, hcarry, he', hmarked', hpost, hmissing, hend⟩ :=
        ih (by omega) harrived hmarked.tail fun m' hm' => hdrop m' (mem_cons_of_mem m hm')
      have hocc : OccursAt m.text W m.pos :=
        (hmarked.occurs_iff m mem_cons_self _ hpos).mpr ⟨m, mem_cons_self, rfl, rfl⟩
      refine ⟨e', m :: a, b, _, post, ?_, rfl, (carry_mark hpos hocc).append hcarry, he', hmarked',
        hpost, hmissing, hend⟩
      have hplace : (placeOf e₀ x m).filter (e - e₀ ≤ ·) = some (m.pos - e₀) := by
        rw [placeOf, if_pos harrived, Option.filter_some, if_pos (by simp; omega)]
      have hconsumed : m.pos - e₀ + m.terminal.text.length = m.stop - e₀ := by
        unfold Mark.stop Mark.text
        omega
      have htext : ((window W e₀ x).take (m.pos - e₀)).drop (e - e₀) = window W e m.pos := by
        rw [window_take (by omega), window_drop hle]
      rw [map_cons, map_cons, zip_cons_cons, placeAnchors]
      dsimp only
      rw [hplace]
      dsimp only
      rw [hconsumed, hrun, htext, append_assoc]
      rfl
    · -- nothing has arrived from here on
      have hall : ∀ m' ∈ m :: j, x < m'.stop := by
        intro m' hm'
        cases hm' with
        | head => exact Nat.lt_of_not_le harrived
        | tail _ hm' =>
          have hge := hrest.le_pos (mem_append_left f hm')
          have hlt' := pos_lt_stop (hrest.ne_nil (mem_append_left f hm'))
          omega
      have hlen : e - e₀ ≤ (window W e₀ x).length := by
        rw [window_length hx]
        omega
      obtain ⟨items, post, hrun, hcases⟩ := placeAnchors_missing (e := e₀) (s := s) hall hlen
      rw [window_drop hle] at hcases
      rcases hcases with ⟨rfl, rfl, hwhy⟩ | ⟨rfl, rfl, -⟩
      · refine ⟨x, [], m :: j, _, [], hrun, rfl, carry_chunk hex, le_rfl, ?_, window_self.symm,
          hall, fun h => absurd h (cons_ne_nil _ _)⟩
        apply hmarked.advance hex
        intro m' hm'
        cases mem_append.mp hm' with
        | inr h => exact hfuture m' h
        | inl h =>
          cases hwhy with
          | inl hdropped => exact hdrop m' h (hdropped m' h) (hall m' h)
          | inr hend =>
            rw [window_length hx] at hend
            have hge := hmarked.spaced.le_pos hm'
            omega
      · exact ⟨e, [], m :: j, _, _, hrun, rfl, carry_nil, hex, hmarked, rfl, hall,
          fun h => absurd h (cons_ne_nil _ _)⟩
end

/-! ### One delta -/

/-- The books: text and special tokens have gone out up to `e`, `x` characters have arrived and
the tokens fed so far reach to `y`; `d` is deferred, `f` is still to come. -/
structure Books (W : List Char) (e x y : ℕ) (d f : List Mark) (s : Scanner) : Prop where
  marked : Marked W e (d ++ f)
  cut_le : e ≤ x
  arrived_le : x ≤ y
  fed_le : y ≤ W.length
  deferred : s.deferredTerminals = d.map Mark.terminal
  post : s.deferredPostText = window W e x
  idle : d = [] → e = x
  missing : ∀ m ∈ d.head?, x < m.stop
  fed : ∀ m ∈ d, m.stop ≤ y
  future : ∀ m ∈ f, y ≤ m.pos

/-- A delta that continues the stream: its tokens reach to `y'` and its text to `x'`. -/
structure Continues (cfg : Config) (W : List Char) (x y x' y' : ℕ) (j : List Mark)
    (delta : Delta) : Prop where
  text : delta.text = window W x x'
  tokens : decode cfg delta.tokenIds = window W y y'
  marks : marksFrom cfg y delta.tokenIds = j
  le_text : x ≤ x'
  le_tokens : y ≤ y'
  lag : x' ≤ y'
  within : y' ≤ W.length

/-- What was deferred is looked for first, in the new text behind what is left. -/
theorem scan_deferred {x' : ℕ} {s : Scanner} (h : Books W e x y d f s) (hx : x ≤ x')
    (hx' : x' ≤ W.length) :
    ∃ e' a b items s' rest, (if s.deferredTerminals = [] then ([], s, window W x x')
        else resolveDeferred s.deferredTerminals (s.deferredPostText ++ window W x x')) =
          (items, s', rest) ∧
      d = a ++ b ∧ Carry W e e' a items ∧ (∀ k, e ≤ k → (∀ m ∈ d, m.stop ≤ k) → e' ≤ k) ∧
      Resolved W e' x' b f s' rest := by
  rw [h.deferred, h.post, window_append h.cut_le hx]
  by_cases hd : d = []
  · subst hd
    obtain rfl := h.idle rfl
    refine ⟨e, [], [], [], s, window W e x', rfl, rfl, carry_nil, fun _ h _ => h, hx, h.marked,
      h.deferred, ?_, ?_, ?_⟩
    · intro m hm
      cases hm
    · intro _
      exact ⟨h.post.trans window_self, rfl⟩
    · intro hne
      exact absurd rfl hne
  · rw [if_neg (by rwa [map_eq_nil_iff])]
    exact resolveDeferred_spec h.marked hx' (h.cut_le.trans hx)

section
variable {cfg : Config} {x' y' : ℕ} {delta : Delta} {s : Scanner}

theorem Continues.fed (hc : Continues cfg W x y x' y' j delta) (hm : m ∈ j) :
    y ≤ m.pos ∧ m.stop ≤ y' := by
  have hbounds := marksFrom_bounds (hc.marks ▸ hm : m ∈ marksFrom cfg y delta.tokenIds)
  rw [hc.tokens, window_length hc.within] at hbounds
  have hle := hc.le_tokens
  omega

/-- The decoded tokens of a delta with a special token are found in its text at their place,
and only if the text is complete. -/
theorem find_tokens (hmarked : Marked W e (j ++ f)) (hc : Continues cfg W x y x' y' j delta)
    (he : e ≤ y) (hj : j ≠ []) :
    find (decode cfg delta.tokenIds) (window W e x') = if x' = y' then some (y - e) else none := by
  obtain ⟨m, j, rfl⟩ := exists_cons_of_ne_nil hj
  have hmem : m ∈ marksFrom cfg y delta.tokenIds := hc.marks ▸ mem_cons_self
  have hne : m.text ≠ [] := hmarked.spaced.2.1
  have hlt := pos_lt_stop hne
  obtain ⟨hpos, hstop⟩ := marksFrom_bounds hmem
  have hyW : y ≤ W.length := hc.le_tokens.trans hc.within
  have hlen : (decode cfg delta.tokenIds).length = y' - y := by
    rw [hc.tokens, window_length hc.within]
  have hdecode : decode cfg delta.tokenIds ≠ [] := by
    intro hempty
    rw [hempty, length_nil] at hstop
    omega
  have hinner : OccursAt m.text (decode cfg delta.tokenIds) (m.pos - y) := by
    have hbefore : (W.take y).length = y := length_take_of_le hyW
    have hocc : OccursAt m.text (W.take y ++ decode cfg delta.tokenIds) m.pos :=
      marksFrom_occurs (by rw [hbefore]; exact hmem)
    rw [← Nat.add_sub_cancel' hpos, ← occursAt_drop, drop_left' hbefore] at hocc
    exact hocc
  -- wherever the tokens are found, the text of the first special token is at its mark or later
  have honly : ∀ q, OccursAt (decode cfg delta.tokenIds) (window W e x') q →
      q = y - e ∧ x' = y' := by
    intro q hq
    obtain ⟨hocc, hend⟩ := (occursAt_window hdecode (hc.lag.trans hc.within)).mp hq
    have hfirst := hinner.trans hne hocc
    obtain ⟨m', hm', hpos', -⟩ :=
      (hmarked.occurs_iff m mem_cons_self _ (by omega)).mp hfirst
    have hge : m.pos ≤ m'.pos := by
      cases hm' with
      | head => exact le_rfl
      | tail _ hm' =>
        have hle := hmarked.spaced.2.2.le_pos hm'
        omega
    have hlag := hc.lag
    have hle := hc.le_tokens
    omega
  split_ifs with hcomplete
  · rw [find_eq_some_iff hdecode]
    constructor
    · rw [occursAt_window hdecode (hc.lag.trans hc.within), Nat.add_sub_cancel' he, hlen]
      refine ⟨?_, by have := hc.le_tokens; omega⟩
      rw [hc.tokens]
      exact occursAt_window_self
    · intro q hq hocc
      have heq := (honly q hocc).1
      omega
  · rw [find_eq_none_iff hdecode]
    intro q hq
    exact hcomplete (honly q hq).2

/-- A delta with special tokens when nothing is deferred and text has arrived. -/
theorem recoverHoldbackText_spec (hmarked : Marked W e (j ++ f))
    (hc : Continues cfg W x y x' y' j delta) (he : e ≤ y) (hex : e ≤ x') (hj : j ≠ [])
    (hfuture : ∀ m ∈ f, y' ≤ m.pos) (hrepeat : x' = y' ∨ (j.map Mark.text).Nodup)
    (hdrop : ∀ m ∈ j, m.terminal.terminal = .drop → x' < m.stop → x' ≤ m.pos) :
    ∃ e' a b items s', recoverHoldbackText (window W e x')
        (groupTokens cfg [] delta.tokenIds) .new = (items, s') ∧
      j = a ++ b ∧ Carry W e e' a items ∧ Books W e' x' y' b f s' := by
  have hfind := find_tokens hmarked hc he hj
  have hterminals : terminalsOf (groupTokens cfg [] delta.tokenIds) = j.map Mark.terminal := by
    rw [groupTokens_terminals cfg [] y, hc.marks]
  have htext : joinDecodedText (groupTokens cfg [] delta.tokenIds) = decode cfg delta.tokenIds := by
    rw [groupTokens_text, nil_append]
  have hresults : groupTokens cfg [] delta.tokenIds ≠ [] := by
    intro hempty
    rw [hempty] at hterminals
    exact hj (map_eq_nil_iff.mp hterminals.symm)
  have hdecode : decode cfg delta.tokenIds ≠ [] := by
    obtain ⟨m, hm⟩ := exists_mem_of_ne_nil j hj
    have hlt := pos_lt_stop (hmarked.spaced.ne_nil (mem_append_left f hm))
    have hbounds := marksFrom_bounds (hc.marks ▸ hm : m ∈ marksFrom cfg y delta.tokenIds)
    intro hempty
    rw [hempty, length_nil] at hbounds
    omega
  have hfuture' : ∀ m ∈ f, x' ≤ m.pos := fun m hm => hc.lag.trans (hfuture m hm)
  have hfed : ∀ m ∈ j, m.stop ≤ y' := fun m hm => (hc.fed hm).2
  rw [recoverHoldbackText, if_neg hresults]
  dsimp only
  rw [htext, if_neg hdecode, hfind]
  by_cases hcomplete : x' = y'
  · -- the whole text is there
    rw [if_pos hcomplete]
    have hdone : Marked W x' f :=
      hmarked.skip hex (fun m hm => hcomplete ▸ hfed m hm) hfuture'
    refine ⟨x', j, [], _, .new, rfl, (append_nil j).symm, ⟨hex, ?_, ?_⟩, hdone, le_rfl, hc.lag,
      hc.within, rfl, window_self.symm, fun _ => rfl, ?_, ?_, hfuture⟩
    · rw [joinDecodedText_append, joinDecodedText_chunk, htext, hc.tokens, hcomplete,
        window_take hc.le_tokens, window_append he hc.le_tokens]
    · rw [terminalsOf_append, terminalsOf_chunk, hterminals, nil_append]
    · intro m hm
      cases hm
    · intro m hm
      cases hm
  · rw [if_neg hcomplete]
    have halone : Alone W e x' j :=
      alone_of_nodup hmarked (hc.lag.trans hc.within) hfuture' (hrepeat.resolve_left hcomplete)
    have hx' : x' ≤ W.length := hc.lag.trans hc.within
    have hpositions := (anchorPositions_spec hx' hex hmarked.spaced.left halone).1
    obtain ⟨e', a, b, items, post, hrun, rfl, hcarry, he', hmarked', hpost, hmissing, hend⟩ :=
      placeAnchors_spec (s := .new) hx' le_rfl hex hmarked hfuture' hdrop
    refine ⟨e', a, b, items, ⟨b.map Mark.terminal, post⟩, ?_, rfl, hcarry, hmarked', he', hc.lag,
      hc.within, rfl, hpost, hend, ?_, ?_, hfuture⟩
    · rw [Nat.sub_self] at hrun
      dsimp only
      rw [rebuildFromAnchors, hterminals, if_neg (by rwa [map_eq_nil_iff]), hpositions, hrun]
      rfl
    · intro m hm
      exact hmissing m (mem_of_mem_head? hm)
    · intro m hm
      exact hfed m (mem_append_right a hm)

/-- A delta of ordinary tokens: the text goes out unless a terminal is missing. -/
theorem Resolved.ordinary {b : List Mark} {rest : List Char} (h : Resolved W e x' b f s rest)
    (hlag : x' ≤ y') (hwithin : y' ≤ W.length) (hfed : ∀ m ∈ b, m.stop ≤ y')
    (hfuture : ∀ m ∈ f, y' ≤ m.pos) :
    ∃ e', Carry W e e' [] (chunk rest) ∧ Books W e' x' y' b f s := by
  by_cases hb : b = []
  · subst hb
    obtain ⟨hpost, rfl⟩ := h.found rfl
    refine ⟨x', carry_chunk h.cut_le, ?_, le_rfl, hlag, hwithin, h.deferred, ?_, fun _ => rfl,
      h.missing, hfed, hfuture⟩
    · exact h.marked.advance h.cut_le fun m hm => hlag.trans (hfuture m hm)
    · rw [hpost, window_self]
  · obtain ⟨hpost, rfl⟩ := h.waits hb
    exact ⟨e, by simpa [chunk] using carry_nil, h.marked, h.cut_le, hlag, hwithin, h.deferred,
      hpost, fun hb' => absurd hb' hb, h.missing, hfed, hfuture⟩

/-- A delta without text: its special tokens wait behind the deferred ones. -/
theorem Resolved.wait {b : List Mark} (h : Resolved W e x' b (j ++ f) s []) (hj : j ≠ [])
    (hlag : x' ≤ y') (hwithin : y' ≤ W.length) (hfed : ∀ m ∈ b ++ j, m.stop ≤ y')
    (hfuture : ∀ m ∈ f, y' ≤ m.pos) :
    Books W e x' y' (b ++ j) f
      { s with deferredTerminals := s.deferredTerminals ++ j.map Mark.terminal } := by
  have hpost : s.deferredPostText = window W e x' := by
    by_cases hb : b = []
    · rw [(h.found hb).1, ← (h.found hb).2]
    · exact (h.waits hb).1
  refine ⟨?_, h.cut_le, hlag, hwithin, ?_, hpost, ?_, ?_, hfed, hfuture⟩
  · rw [append_assoc]
    exact h.marked
  · rw [map_append, h.deferred]
  · intro hempty
    exact absurd (append_eq_nil_iff.mp hempty).2 hj
  · intro m hm
    by_cases hb : b = []
    · subst hb
      have hmem : m ∈ j := mem_of_mem_head? hm
      have hwindow := congrArg List.length (h.found rfl).2
      rw [window_length (hlag.trans hwithin), length_nil] at hwindow
      have hpos := h.marked.spaced.le_pos (mem_append_left f hmem)
      have hlt := pos_lt_stop (h.marked.spaced.ne_nil (mem_append_left f hmem))
      omega
    · rw [head?_append_of_ne_nil b hb] at hm
      exact h.missing m hm

theorem scan_spec (h : Books W e x y d (j ++ f) s) (hc : Continues cfg W x y x' y' j delta)
    (hfuture : ∀ m ∈ f, y' ≤ m.pos) (hrepeat : x' = y' ∨ (j.map Mark.text).Nodup)
    (hdrop : ∀ m ∈ j, m.terminal.terminal = .drop → x' < m.stop → x' ≤ m.pos) :
    ∃ e' a b items s', scan cfg delta.text delta.tokenIds s = (items, s') ∧
      d ++ j = a ++ b ∧ Carry W e e' a items ∧ Books W e' x' y' b f s' := by
  obtain ⟨e₁, a, b, items, s₁, rest, hrun, rfl, hcarry, hbound, hresolved⟩ :=
    scan_deferred h hc.le_text (hc.lag.trans hc.within)
  have hbfed : ∀ m ∈ b, m.stop ≤ y' := fun m hm =>
    (h.fed m (mem_append_right a hm)).trans hc.le_tokens
  have hall : (delta.tokenIds.all fun tid => (cfg.tokenIdToTerminal tid).isNone) = true ↔
      j = [] := by
    rw [← hc.marks, marksFrom_eq_nil_iff, all_eq_true]
  rw [scan, hc.text, hrun]
  dsimp only
  by_cases hspecial : j = []
  · subst hspecial
    rw [if_pos (hall.mpr rfl)]
    obtain ⟨e', hchunk, hbooks⟩ := hresolved.ordinary hc.lag hc.within hbfed hfuture
    refine ⟨e', a, b, _, s₁, rfl, append_nil _, ?_, hbooks⟩
    rw [← append_nil a]
    exact hcarry.append hchunk
  · rw [if_neg fun hno => hspecial (hall.mp hno)]
    by_cases hrest : rest = []
    · subst hrest
      rw [if_neg (not_not.mpr rfl), groupTokens_terminals cfg [] y, hc.marks]
      refine ⟨e₁, a, b ++ j, _, _, rfl, append_assoc .., hcarry,
        hresolved.wait hspecial hc.lag hc.within ?_ hfuture⟩
      intro m hm
      cases mem_append.mp hm with
      | inl hm => exact hbfed m hm
      | inr hm => exact (hc.fed hm).2
    · have hb : b = [] := by
        by_contra hb
        exact hrest (hresolved.waits hb).2
      subst hb
      obtain ⟨hpost, rfl⟩ := hresolved.found rfl
      have hnew : s₁ = .new := by
        obtain ⟨deferred, post⟩ := s₁
        have hdeferred := hresolved.deferred
        dsimp only at hdeferred hpost
        rw [hdeferred, hpost]
        rfl
      rw [if_pos hrest, hnew]
      have hmarked : Marked W e₁ (j ++ f) := hresolved.marked
      have he₁y : e₁ ≤ y := hbound y (h.cut_le.trans h.arrived_le) h.fed
      obtain ⟨e₂, a₂, b₂, items₂, s₂, hrun₂, rfl, hcarry₂, hbooks⟩ :=
        recoverHoldbackText_spec hmarked hc he₁y hresolved.cut_le hspecial hfuture hrepeat hdrop
      rw [hrun₂]
      refine ⟨e₂, a ++ a₂, b₂, _, s₂, rfl, ?_, hcarry.append hcarry₂, hbooks⟩
      rw [append_nil, append_assoc]
end

/-! ### A whole stream -/

variable {cfg : Config} {deltas : List Delta} {s : Scanner}

def fedIds (deltas : List Delta) : List ℕ := deltas.flatMap Delta.tokenIds

def arrived (deltas : List Delta) : List Char := deltas.flatMap Delta.text

/-- The text is at every moment a beginning of the decoded tokens and equals them at the end;
the text of a special token occurs only where such a token stands. -/
structure Stream (cfg : Config) (deltas : List Delta) : Prop where
  lag : ∀ n ≤ deltas.length, arrived (deltas.take n) <+: decode cfg (fedIds (deltas.take n))
  complete : arrived deltas = decode cfg (fedIds deltas)
  nonempty : ∀ m ∈ marksFrom cfg 0 (fedIds deltas), m.text ≠ []
  marked : ∀ m ∈ marksFrom cfg 0 (fedIds deltas), ∀ q < (decode cfg (fedIds deltas)).length,
    OccursAt m.text (decode cfg (fedIds deltas)) q →
      ∃ m' ∈ marksFrom cfg 0 (fedIds deltas), m'.pos = q ∧ m'.text = m.text

/-- A delta whose text is not complete has no two special tokens with one text, and its text
does not end inside the text of one of its dropped tokens. -/
def Steady (cfg : Config) (deltas : List Delta) : Prop :=
  ∀ n delta, deltas[n]? = some delta →
    (arrived (deltas.take (n + 1)) = decode cfg (fedIds (deltas.take (n + 1))) ∨
      ((specials cfg delta.tokenIds).map PreLexedTerminal.text).Nodup) ∧
    ∀ m ∈ marksFrom cfg (decode cfg (fedIds (deltas.take n))).length delta.tokenIds,
      m.terminal.terminal = .drop → (arrived (deltas.take (n + 1))).length ≤ m.pos ∨
          m.stop ≤ (arrived (deltas.take (n + 1))).length

theorem spaced_marksFrom {start : ℕ} {tids : List ℕ}
    (hne : ∀ m ∈ marksFrom cfg start tids, m.text ≠ []) :
    Spaced start (marksFrom cfg start tids) := by
  induction tids generalizing start with
  | nil => trivial
  | cons tid tids ih =>
    rw [marksFrom] at hne ⊢
    have hrest := ih fun m hm => hne m (mem_append_right _ hm)
    cases h : preLexed cfg tid with
    | none => exact hrest.mono fun m hm => (Nat.le_add_right _ _).trans (hrest.le_pos hm)
    | some t =>
      refine ⟨le_rfl, hne _ (by rw [h]; exact mem_cons_self), ?_⟩
      have hstop : (Mark.mk start t).stop = start + (cfg.decodeToken tid).length := by
        rw [Mark.stop, Mark.text, text_of_preLexed h]
      rw [hstop]
      exact hrest

/-- At the start nothing has gone out and all marks are ahead. -/
theorem Stream.books (h : Stream cfg deltas) :
    Books (decode cfg (fedIds deltas)) 0 0 0 [] (marksFrom cfg 0 (fedIds deltas)) .new := by
  refine ⟨⟨spaced_marksFrom h.nonempty, ?_⟩, le_rfl, le_rfl, Nat.zero_le _, rfl, rfl, fun _ => rfl,
    ?_, ?_, fun m _ => Nat.zero_le _⟩
  · intro m hm q _
    constructor
    · intro hocc
      have hle := hocc.add_le (h.nonempty m hm)
      have hpos := length_pos_iff.mpr (h.nonempty m hm)
      exact h.marked m hm q (by omega) hocc
    · intro hex
      obtain ⟨m', hm', rfl, htext⟩ := hex
      rw [← htext]
      have hocc : OccursAt m'.text ([] ++ decode cfg (fedIds deltas)) m'.pos := marksFrom_occurs hm'
      exact hocc
  · intro m hm
    cases hm
  · intro m hm
    cases hm

theorem fedIds_append (deltas deltas' : List Delta) :
    fedIds (deltas ++ deltas') = fedIds deltas ++ fedIds deltas' := flatMap_append ..

/-- Every delta of a stream continues what came before. -/
theorem Stream.continues {before after : List Delta} {delta : Delta}
    (h : Stream cfg (before ++ delta :: after)) :
    Continues cfg (decode cfg (fedIds (before ++ delta :: after))) (arrived before).length
      (decode cfg (fedIds before)).length (arrived (before ++ [delta])).length
      (decode cfg (fedIds (before ++ [delta]))).length
      (marksFrom cfg (decode cfg (fedIds before)).length delta.tokenIds) delta := by
  have hsplit : before ++ delta :: after = (before ++ [delta]) ++ after := by simp
  have htake : (before ++ delta :: after).take (before.length + 1) = before ++ [delta] := by
    rw [hsplit, take_left' (by simp)]
  have hlag := h.lag (before.length + 1) (by simp)
  rw [htake] at hlag
  have hone : fedIds [delta] = delta.tokenIds ∧ arrived [delta] = delta.text :=
    ⟨append_nil _, append_nil _⟩
  have hids : decode cfg (fedIds (before ++ [delta])) =
      decode cfg (fedIds before) ++ decode cfg delta.tokenIds := by
    rw [fedIds_append, decode_append, hone.1]
  have htext : arrived (before ++ [delta]) = arrived before ++ delta.text := by
    rw [← hone.2]
    exact flatMap_append ..
  have hwhole : decode cfg (fedIds (before ++ [delta])) <+:
      decode cfg (fedIds (before ++ delta :: after)) := by
    rw [hsplit, fedIds_append (before ++ [delta]), decode_append]
    exact prefix_append _ _
  refine ⟨?_, ?_, rfl, ?_, ?_, hlag.length_le, hwhole.length_le⟩
  · rw [window, ← prefix_iff_eq_take.mp (hlag.trans hwhole), htext, drop_left]
  · rw [window, ← prefix_iff_eq_take.mp hwhole, hids, drop_left]
  · rw [htext, length_append]
    exact Nat.le_add_right _ _
  · rw [hids, length_append]
    exact Nat.le_add_right _ _

/-- From any point of the stream on, the items carry the rest of it. -/
theorem scanAll_spec {before after : List Delta} (h : Stream cfg (before ++ after))
    (hsteady : Steady cfg (before ++ after))
    (hbooks : Books (decode cfg (fedIds (before ++ after))) e (arrived before).length
      (decode cfg (fedIds before)).length d
      (marksFrom cfg (decode cfg (fedIds before)).length (fedIds after)) s) :
    Carry (decode cfg (fedIds (before ++ after))) e (decode cfg (fedIds (before ++ after))).length
      (d ++ marksFrom cfg (decode cfg (fedIds before)).length (fedIds after))
      (scanAll cfg after s) := by
  induction after generalizing before e d s with
  | nil =>
    -- everything has arrived, so nothing is deferred
    have hcomplete := h.complete
    rw [append_nil] at hbooks hcomplete ⊢
    have hd : d = [] := by
      by_contra hd
      obtain ⟨m, d, rfl⟩ := exists_cons_of_ne_nil hd
      have hmissing := hbooks.missing m rfl
      have hfed := hbooks.fed m mem_cons_self
      rw [hcomplete] at hmissing
      omega
    subst hd
    have hidle := hbooks.idle rfl
    rw [hcomplete] at hidle
    have hpost : s.deferredPostText = [] := by
      rw [hbooks.post, hcomplete, hidle, window_self]
    rw [scanAll, flushPending, hbooks.deferred, hpost, hidle]
    exact carry_nil
  | cons delta after ih =>
    have hc := h.continues
    have hids : decode cfg (fedIds (before ++ [delta])) =
        decode cfg (fedIds before) ++ decode cfg delta.tokenIds := by
      rw [fedIds_append, decode_append]
      congr 1
      exact congrArg _ (append_nil _)
    have hmarks : marksFrom cfg (decode cfg (fedIds before)).length (fedIds (delta :: after)) =
        marksFrom cfg (decode cfg (fedIds before)).length delta.tokenIds ++
          marksFrom cfg (decode cfg (fedIds (before ++ [delta]))).length (fedIds after) := by
      rw [hids, length_append, ← marksFrom_append]
      rfl
    have hget : (before ++ delta :: after)[before.length]? = some delta := by simp
    have htake : (before ++ delta :: after).take before.length = before := take_left
    have hassoc : before ++ delta :: after = (before ++ [delta]) ++ after := by simp
    have htake' : (before ++ delta :: after).take (before.length + 1) = before ++ [delta] := by
      rw [hassoc, take_left' (by simp)]
    obtain ⟨hrepeat, hdrop⟩ := hsteady before.length delta hget
    rw [htake'] at hrepeat
    rw [htake, htake'] at hdrop
    rw [hmarks] at hbooks
    obtain ⟨e', a, b, items, s', hrun, hsplit, hcarry, hbooks'⟩ := scan_spec hbooks hc
      (fun m hm => (marksFrom_bounds hm).1)
      (hrepeat.imp (congrArg List.length) fun hnodup => by
        rw [← marksFrom_terminals (decode cfg (fedIds before)).length, map_map] at hnodup
        exact hnodup)
      (fun m hm hd hlt => (hdrop m hm hd).resolve_right (Nat.not_le_of_lt hlt))
    have hall : scanAll cfg (delta :: after) s = items ++ scanAll cfg after s' := by
      rw [scanAll, hrun]
    rw [hmarks, ← append_assoc d, hsplit, append_assoc a, hall]
    rw [hassoc] at h hsteady hbooks' hcarry ⊢
    exact hcarry.append (ih h hsteady hbooks')

/-- Every special token is delivered once and in order, and the texts of all items are the
decoded stream. -/
theorem special_tokens_in_place (h : Stream cfg deltas) (hsteady : Steady cfg deltas) :
    terminalsOf (scanAll cfg deltas .new) = specials cfg (fedIds deltas) ∧
      joinDecodedText (scanAll cfg deltas .new) = decode cfg (fedIds deltas) := by
  have hcarry : Carry (decode cfg (fedIds ([] ++ deltas))) 0
      (decode cfg (fedIds ([] ++ deltas))).length ([] ++ marksFrom cfg 0 (fedIds deltas))
      (scanAll cfg deltas .new) := scanAll_spec h hsteady h.books
  constructor
  · rw [hcarry.terminals, nil_append, marksFrom_terminals]
  · rw [hcarry.text, window, nil_append, take_length, drop_zero]

def twoMarkers : Config :=
  ⟨fun tid => if tid = 2 then none else some (.named [if tid = 0 then 's' else 't']),
    fun tid => if tid = 2 then ['a', 'b'] else ['<', if tid = 0 then 's' else 't', '>']⟩

def lateMarker : List Delta :=
  [⟨[], [2]⟩, ⟨['a', 'b', '<'], [1]⟩, ⟨['t', '>'], []⟩]

theorem special_tokens_in_place_lateMarker :
    terminalsOf (scanAll twoMarkers lateMarker .new) = [⟨.named ['t'], 1, ['<', 't', '>']⟩] ∧
      joinDecodedText (scanAll twoMarkers lateMarker .new) = ['a', 'b', '<', 't', '>'] := by
  have hstream : Stream twoMarkers lateMarker := by
    constructor <;> decide
  have hsteady : Steady twoMarkers lateMarker := by
    intro n delta h
    match n, h with
    | 0, h =>
      cases h
      decide
    | 1, h =>
      cases h
      decide
    | 2, h =>
      cases h
      decide
  exact special_tokens_in_place hstream hsteady

/-- Of the tokens s, t, s the last is late: the s that arrived is taken for it, and t is
deferred behind its own text. -/
def lateRepeat : List Delta := [⟨['<', 's', '>', '<', 't', '>'], [0, 1, 0]⟩, ⟨['<', 's', '>'], []⟩]

theorem special_tokens_in_place_lateRepeat : Stream twoMarkers lateRepeat ∧
      specials twoMarkers (fedIds lateRepeat) =
        [⟨.named ['s'], 0, ['<', 's', '>']⟩, ⟨.named ['t'], 1, ['<', 't', '>']⟩,
          ⟨.named ['s'], 0, ['<', 's', '>']⟩] ∧
      terminalsOf (scanAll twoMarkers lateRepeat .new) =
        [⟨.named ['s'], 0, ['<', 's', '>']⟩, ⟨.named ['s'], 0, ['<', 's', '>']⟩,
          ⟨.named ['t'], 1, ['<', 't', '>']⟩] := by
  have hstream : Stream twoMarkers lateRepeat := by
    constructor <;> decide
  refine ⟨hstream, rfl, ?_⟩
  decide

end Vllm.TokenScanner
