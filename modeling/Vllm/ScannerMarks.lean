import Vllm.TokenScanner

/-!
Where the special tokens of a stream stand in its text. If the text of a special
token occurs only where such a token stands, the next special token after a cut
is found by searching for its text, as soon as it has arrived.
-/
namespace Vllm.TokenScanner

open MarkerSearch List

/-- A special token at the position of its text in the stream. -/
structure Mark where
  pos : ℕ
  terminal : PreLexedTerminal
deriving DecidableEq, Repr

namespace Mark

def text (m : Mark) : List Char := m.terminal.text

def stop (m : Mark) : ℕ := m.pos + m.text.length

end Mark

def decode (cfg : Config) (tids : List ℕ) : List Char := tids.flatMap cfg.decodeToken

def marksFrom (cfg : Config) (start : ℕ) : List ℕ → List Mark
  | [] => []
  | tid :: tids =>
    (preLexed cfg tid).toList.map (Mark.mk start) ++
      marksFrom cfg (start + (cfg.decodeToken tid).length) tids

section
variable {cfg : Config} {start : ℕ} {tids : List ℕ} {m : Mark}

theorem decode_append (tids tids' : List ℕ) :
    decode cfg (tids ++ tids') = decode cfg tids ++ decode cfg tids' :=
  flatMap_append ..

/-- Marks of a stream that goes on are shifted by the text before. -/
theorem marksFrom_append (start : ℕ) (tids tids' : List ℕ) : marksFrom cfg start (tids ++ tids') =
      marksFrom cfg start tids ++ marksFrom cfg (start + (decode cfg tids).length) tids' := by
  induction tids generalizing start with
  | nil => rfl
  | cons tid tids ih =>
    have hlen : (decode cfg (tid :: tids)).length =
        (cfg.decodeToken tid).length + (decode cfg tids).length := by
      unfold decode
      rw [flatMap_cons, length_append]
    rw [cons_append, marksFrom, marksFrom, ih, hlen, append_assoc, Nat.add_assoc]

theorem text_of_preLexed {tid : ℕ} {t : PreLexedTerminal} (h : preLexed cfg tid = some t) :
    t.text = cfg.decodeToken tid := by
  unfold preLexed at h
  obtain ⟨name, _, rfl⟩ := Option.map_eq_some_iff.mp h
  rfl

theorem marksFrom_bounds (h : m ∈ marksFrom cfg start tids) :
    start ≤ m.pos ∧ m.stop ≤ start + (decode cfg tids).length := by
  induction tids generalizing start with
  | nil => cases h
  | cons tid tids ih =>
    rw [marksFrom, mem_append] at h
    rw [decode, flatMap_cons, length_append]
    cases h with
    | inl h =>
      obtain ⟨t, ht, rfl⟩ := mem_map.mp h
      have htext := text_of_preLexed (Option.mem_toList.mp ht)
      have hstop : (Mark.mk start t).stop = start + (cfg.decodeToken tid).length := by
        rw [Mark.stop, Mark.text, htext]
      exact ⟨le_rfl, by rw [hstop]; omega⟩
    | inr h =>
      have hbounds := ih h
      rw [decode] at hbounds
      omega

/-- A mark is an occurrence of the text of its token. -/
theorem marksFrom_occurs {before : List Char} (h : m ∈ marksFrom cfg before.length tids) :
    OccursAt m.text (before ++ decode cfg tids) m.pos := by
  induction tids generalizing before with
  | nil => cases h
  | cons tid tids ih =>
    rw [marksFrom, mem_append] at h
    rw [decode, flatMap_cons]
    cases h with
    | inl h =>
      obtain ⟨t, ht, rfl⟩ := mem_map.mp h
      rw [Mark.text, text_of_preLexed (Option.mem_toList.mp ht), ← append_assoc]
      exact occursAt_append before
    | inr h =>
      rw [← length_append] at h
      rw [← append_assoc]
      exact ih h

def specials (cfg : Config) (tids : List ℕ) : List PreLexedTerminal := tids.filterMap (preLexed cfg)

/-- The marks name the special tokens in order. -/
theorem marksFrom_terminals (start : ℕ) (tids : List ℕ) :
    (marksFrom cfg start tids).map Mark.terminal = specials cfg tids := by
  induction tids generalizing start with
  | nil => rfl
  | cons tid tids ih =>
    rw [marksFrom, map_append, ih]
    unfold specials
    rw [filterMap_cons]
    cases preLexed cfg tid <;> rfl

theorem marksFrom_eq_nil_iff :
    marksFrom cfg start tids = [] ↔ ∀ tid ∈ tids, (cfg.tokenIdToTerminal tid).isNone := by
  induction tids generalizing start with
  | nil => simp [marksFrom]
  | cons tid tids ih =>
    rw [marksFrom, append_eq_nil_iff, ih, forall_mem_cons]
    simp [preLexed]
end

/-- The marks stand one behind the other from `e` on, and no text is empty. -/
def Spaced : ℕ → List Mark → Prop
  | _, [] => True
  | e, m :: ms => e ≤ m.pos ∧ m.text ≠ [] ∧ Spaced m.stop ms

/-- From `e` on the texts of the marked tokens occur only at the marks. -/
structure Marked (W : List Char) (e : ℕ) (ms : List Mark) : Prop where
  spaced : Spaced e ms
  occurs_iff : ∀ m ∈ ms, ∀ q, e ≤ q →
    (OccursAt m.text W q ↔ ∃ m' ∈ ms, m'.pos = q ∧ m'.text = m.text)

variable {W : List Char} {e x : ℕ} {m : Mark} {ms : List Mark}

theorem Mark.pos_lt_stop (h : m.text ≠ []) : m.pos < m.stop :=
  Nat.lt_add_of_pos_right (length_pos_iff.mpr h)

theorem Spaced.le_pos (h : Spaced e ms) (hm : m ∈ ms) : e ≤ m.pos := by
  induction ms generalizing e with
  | nil => cases hm
  | cons m' ms ih =>
    obtain ⟨hle, hne, hrest⟩ := h
    cases hm with
    | head => exact hle
    | tail _ hm =>
      have hpos := ih hrest hm
      have hlt := Mark.pos_lt_stop hne
      omega

theorem Spaced.ne_nil (h : Spaced e ms) (hm : m ∈ ms) : m.text ≠ [] := by
  induction ms generalizing e with
  | nil => cases hm
  | cons m' ms ih =>
    cases hm with
    | head => exact h.2.1
    | tail _ hm => exact ih h.2.2 hm

variable {ms' : List Mark} {e' : ℕ}

theorem Spaced.mono (h : Spaced e ms) (hle : ∀ m ∈ ms, e' ≤ m.pos) : Spaced e' ms := by
  cases ms with
  | nil => trivial
  | cons m ms => exact ⟨hle m mem_cons_self, h.2⟩

theorem Marked.tail (h : Marked W e (m :: ms)) : Marked W m.stop ms := by
  obtain ⟨hle, hne, hspaced⟩ := h.spaced
  have hlt := Mark.pos_lt_stop hne
  refine ⟨hspaced, fun m' hm' q hq => ?_⟩
  rw [h.occurs_iff m' (mem_cons_of_mem _ hm') q (by omega)]
  constructor
  · intro hex
    obtain ⟨m'', hm'', hpos, htext⟩ := hex
    cases hm'' with
    | head => omega
    | tail _ hm'' => exact ⟨m'', hm'', hpos, htext⟩
  · intro hex
    obtain ⟨m'', hm'', hpos, htext⟩ := hex
    exact ⟨m'', mem_cons_of_mem _ hm'', hpos, htext⟩

/-- The cut may move up to the next mark. -/
theorem Marked.advance (h : Marked W e ms) (hle : e ≤ e') (hpos : ∀ m ∈ ms, e' ≤ m.pos) :
    Marked W e' ms :=
  ⟨h.spaced.mono hpos, fun m hm q hq => h.occurs_iff m hm q (hle.trans hq)⟩

/-- Behind marks that have gone out the rest is still marked. -/
theorem Marked.skip (h : Marked W e (ms ++ ms')) (hle : e ≤ e') (hstop : ∀ m ∈ ms, m.stop ≤ e')
    (hpos : ∀ m ∈ ms', e' ≤ m.pos) : Marked W e' ms' := by
  induction ms generalizing e with
  | nil => exact h.advance hle hpos
  | cons m ms ih =>
    refine ih h.tail (hstop m mem_cons_self) ?_
    intro m' hm'
    exact hstop m' (mem_cons_of_mem m hm')

theorem Spaced.left (h : Spaced e (ms ++ ms')) : Spaced e ms := by
  induction ms generalizing e with
  | nil => trivial
  | cons m ms ih => exact ⟨h.1, h.2.1, ih h.2.2⟩

def window (W : List Char) (e x : ℕ) : List Char := (W.take x).drop e

theorem window_length (hx : x ≤ W.length) : (window W e x).length = x - e := by
  rw [window, length_drop, length_take_of_le hx]

theorem window_append {e₁ e₂ e₃ : ℕ} (h₁ : e₁ ≤ e₂) (h₂ : e₂ ≤ e₃) :
    window W e₁ e₂ ++ window W e₂ e₃ = window W e₁ e₃ := by
  unfold window
  rw [drop_take, drop_take, drop_take]
  have hsum : e₃ - e₁ = (e₂ - e₁) + (e₃ - e₂) := by omega
  rw [hsum, take_add, drop_drop, Nat.add_sub_cancel' h₁]

theorem window_take (h : e' ≤ x) : (window W e x).take (e' - e) = window W e e' := by
  unfold window
  rw [drop_take, drop_take, take_take]
  congr 1
  omega

theorem window_drop (h : e ≤ e') : (window W e x).drop (e' - e) = window W e' x := by
  unfold window
  rw [drop_drop, Nat.add_sub_cancel' h]

theorem window_self : window W e e = [] := by
  unfold window
  rw [drop_eq_nil_iff, length_take]
  exact min_le_left _ _

/-- An occurrence in a window is one of the text that lies inside it. -/
theorem occursAt_window {w : List Char} {q : ℕ} (hw : w ≠ []) (hx : x ≤ W.length) :
    OccursAt w (window W e x) q ↔ OccursAt w W (e + q) ∧ e + q + w.length ≤ x := by
  rw [window, occursAt_drop]
  have hsplit := take_append_drop x W
  constructor
  · intro h
    have hle := h.add_le hw
    rw [length_take_of_le hx] at hle
    refine ⟨?_, hle⟩
    rw [← hsplit]
    exact h.append hw _
  · intro h
    obtain ⟨hocc, hle⟩ := h
    rw [← hsplit] at hocc
    apply hocc.of_append
    rw [length_take_of_le hx]
    exact hle

theorem occursAt_window_self {y y' : ℕ} : OccursAt (window W y y') W y := by
  unfold OccursAt window
  rw [drop_take]
  exact take_prefix _ _

/-- The next special token is found at its place once its text has arrived. -/
theorem Marked.find_head (h : Marked W e (m :: ms)) (hx : x ≤ W.length) :
    find m.text (window W e x) = if m.stop ≤ x then some (m.pos - e) else none := by
  obtain ⟨hle, hne, hspaced⟩ := h.spaced
  have hafter : ∀ q, OccursAt m.text (window W e x) q → m.pos ≤ e + q ∧ m.stop ≤ x := by
    intro q hq
    obtain ⟨hocc, hend⟩ := (occursAt_window hne hx).mp hq
    obtain ⟨m', hm', hpos, htext⟩ :=
      (h.occurs_iff m mem_cons_self _ (Nat.le_add_right e q)).mp hocc
    have hge : m.pos ≤ m'.pos := by
      cases hm' with
      | head => exact le_rfl
      | tail _ hm' => exact (Mark.pos_lt_stop hne).le.trans (hspaced.le_pos hm')
    refine ⟨by omega, ?_⟩
    unfold Mark.stop
    omega
  split_ifs with harrived
  · rw [find_eq_some_iff hne]
    constructor
    · rw [occursAt_window hne hx, Nat.add_sub_cancel' hle]
      exact ⟨(h.occurs_iff m mem_cons_self _ hle).mpr ⟨m, mem_cons_self, rfl, rfl⟩, harrived⟩
    · intro j hj hocc
      have hpos := (hafter j hocc).1
      omega
  · rw [find_eq_none_iff hne]
    intro q hq
    exact harrived (hafter q hq).2

end Vllm.TokenScanner
