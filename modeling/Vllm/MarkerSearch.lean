import Mathlib.Data.List.Infix

/-!
Search for a marker in a text that arrives in pieces. `find` is the leftmost
occurrence in what has arrived; `partialPrefixLen` is how much of the end may
still grow into the marker. Text before that can be given out: no occurrence in
any continuation starts there.
-/
namespace Vllm.MarkerSearch

open List Option

variable {α : Type} {marker text rest : List α} {i j k : ℕ}

def OccursAt (marker text : List α) (i : ℕ) : Prop := marker <+: text.drop i

theorem OccursAt.add_le (h : OccursAt marker text i) (hm : marker ≠ []) :
    i + marker.length ≤ text.length := by
  have hlen := h.length_le
  rw [length_drop] at hlen
  have hpos := length_pos_iff.mpr hm
  omega

theorem occursAt_drop : OccursAt marker (text.drop k) i ↔ OccursAt marker text (k + i) := by
  unfold OccursAt
  rw [drop_drop]

theorem OccursAt.append (h : OccursAt marker text i) (hm : marker ≠ []) (rest : List α) :
    OccursAt marker (text ++ rest) i := by
  have hle := h.add_le hm
  unfold OccursAt at h ⊢
  rw [drop_append_of_le_length (by omega)]
  exact h.trans (prefix_append _ _)

/-- An occurrence that ends within the text does not depend on what follows. -/
theorem OccursAt.of_append (h : OccursAt marker (text ++ rest) i)
    (hle : i + marker.length ≤ text.length) : OccursAt marker text i := by
  unfold OccursAt at h ⊢
  rw [drop_append_of_le_length (by omega)] at h
  apply prefix_of_prefix_length_le h (prefix_append _ _)
  rw [length_drop]
  omega

theorem occursAt_append (before : List α) :
    OccursAt marker (before ++ marker ++ rest) before.length := by
  unfold OccursAt
  rw [append_assoc, drop_left]
  exact prefix_append _ _

/-- An occurrence inside an occurrence is one of the text. -/
theorem OccursAt.trans {inner : List α} (h : OccursAt inner marker i) (hi : inner ≠ [])
    (h' : OccursAt marker text j) : OccursAt inner text (j + i) := by
  obtain ⟨tail, htail⟩ := h'
  rw [← occursAt_drop, ← htail]
  exact h.append hi tail

variable [DecidableEq α]

instance (marker text : List α) (i : ℕ) : Decidable (OccursAt marker text i) :=
  inferInstanceAs (Decidable (marker <+: text.drop i))

def find (marker : List α) : List α → Option ℕ
  | [] => if marker = [] then some 0 else none
  | a :: text =>
    if marker <+: a :: text then some 0 else (find marker text).map (· + 1)

section
variable (hm : marker ≠ [])
include hm

theorem find_eq_none_iff : find marker text = none ↔ ∀ i, ¬ OccursAt marker text i := by
  induction text with
  | nil =>
    rw [find, if_neg hm]
    refine ⟨fun _ i h => ?_, fun _ => rfl⟩
    have hle := h.add_le hm
    have hpos := length_pos_iff.mpr hm
    rw [length_nil] at hle
    omega
  | cons a text ih =>
    rw [find]
    split_ifs with hfirst
    · constructor
      · intro h
        cases h
      · exact fun h => (h 0 hfirst).elim
    · rw [map_eq_none_iff, ih]
      constructor
      · intro h i
        cases i with
        | zero => exact hfirst
        | succ i => exact h i
      · intro h i
        exact h (i + 1)

/-- `find` gives the leftmost occurrence. -/
theorem find_eq_some_iff :
    find marker text = some i ↔ OccursAt marker text i ∧ ∀ j < i, ¬ OccursAt marker text j := by
  induction text generalizing i with
  | nil =>
    rw [find, if_neg hm]
    constructor
    · intro h
      cases h
    · intro h
      have hle := h.1.add_le hm
      have hpos := length_pos_iff.mpr hm
      rw [length_nil] at hle
      omega
  | cons a text ih =>
    rw [find]
    split_ifs with hfirst
    · constructor
      · intro h
        cases h
        exact ⟨hfirst, fun j hj => absurd hj (Nat.not_lt_zero j)⟩
      · intro h
        cases i with
        | zero => rfl
        | succ i => exact absurd hfirst (h.2 0 (Nat.succ_pos i))
    · rw [map_eq_some_iff]
      constructor
      · intro h
        obtain ⟨i, hi, rfl⟩ := h
        obtain ⟨hocc, hmin⟩ := ih.mp hi
        refine ⟨hocc, ?_⟩
        intro j hj
        cases j with
        | zero => exact hfirst
        | succ j => exact hmin j (by omega)
      · intro h
        cases i with
        | zero => exact absurd h.1 hfirst
        | succ i => exact ⟨i, ih.mpr ⟨h.1, fun j hj => h.2 (j + 1) (by omega)⟩, rfl⟩

/-- The leftmost occurrence stays the leftmost when more text arrives. -/
theorem find_append (h : find marker text = some i) (rest : List α) :
    find marker (text ++ rest) = some i := by
  obtain ⟨hocc, hmin⟩ := (find_eq_some_iff hm).mp h
  refine (find_eq_some_iff hm).mpr ⟨hocc.append hm rest, ?_⟩
  intro j hj hj'
  exact hmin j hj (hj'.of_append (by have := hocc.add_le hm; omega))

/-- The leftmost occurrence is found as soon as it has arrived. -/
theorem find_take_append (h : find marker text = some i) (rest : List α) :
    find marker (text.take (i + marker.length) ++ rest) = some i := by
  apply find_append hm
  obtain ⟨hocc, hmin⟩ := (find_eq_some_iff hm).mp h
  have hsplit := take_append_drop (i + marker.length) text
  rw [← hsplit] at hocc hmin
  refine (find_eq_some_iff hm).mpr ⟨hocc.of_append ?_, ?_⟩
  · rw [hsplit] at hocc
    rw [length_take]
    exact le_min le_rfl (hocc.add_le hm)
  · intro j hj hj'
    exact hmin j hj (hj'.append hm _)

/-- Text without an occurrence in front only shifts the leftmost one. -/
theorem find_drop (h : ∀ i, OccursAt marker text i → k ≤ i) :
    find marker (text.drop k) = (find marker text).map (· - k) := by
  cases hfind : find marker text with
  | none =>
    rw [map_none, find_eq_none_iff hm]
    intro i hi
    exact (find_eq_none_iff hm).mp hfind (k + i) (occursAt_drop.mp hi)
  | some i =>
    obtain ⟨hocc, hmin⟩ := (find_eq_some_iff hm).mp hfind
    have hk := h i hocc
    rw [map_some, find_eq_some_iff hm, occursAt_drop]
    refine ⟨by rwa [Nat.add_sub_cancel' hk], ?_⟩
    intro j hj hj'
    exact hmin (k + j) (by omega) (occursAt_drop.mp hj')
end

def rfind (marker text : List α) (stop : ℕ) : Option ℕ :=
  (List.range (text.length + 1)).reverse.find? fun i => OccursAt marker (text.take stop) i

theorem rfind_eq_none (h : ∀ i, ¬ OccursAt marker (text.take k) i) :
    rfind marker text k = none := by
  unfold rfind
  rw [find?_eq_none]
  intro i _
  simpa using h i

/-- `rfind` gives the rightmost occurrence that ends in time. -/
theorem rfind_eq_some (hocc : OccursAt marker (text.take k) i)
    (hmax : ∀ j, OccursAt marker (text.take k) j → j ≤ i) (hi : i ≤ text.length) :
    rfind marker text k = some i := by
  unfold rfind
  have hrange : List.range (text.length + 1) =
      List.range (i + 1) ++ (List.range (text.length - i)).map (i + 1 + ·) := by
    rw [← range_add]
    congr 1
    omega
  rw [hrange, reverse_append, find?_append, range_succ, reverse_append]
  have hnone : ((List.range (text.length - i)).map (i + 1 + ·)).reverse.find?
      (fun i => OccursAt marker (text.take k) i) = none := by
    rw [find?_eq_none]
    intro j hj hocc'
    obtain ⟨d, _, rfl⟩ := mem_map.mp (mem_reverse.mp hj)
    have hle := hmax _ (of_decide_eq_true hocc')
    omega
  rw [hnone, none_or]
  simp [hocc]

/-- The length of the longest proper beginning of the marker at the end of the text. -/
def partialPrefixLen (marker : List α) : List α → ℕ
  | [] => 0
  | a :: text =>
    if text.length + 1 < marker.length ∧ a :: text <+: marker then text.length + 1
    else partialPrefixLen marker text

theorem partialPrefixLen_le (marker text : List α) :
    partialPrefixLen marker text ≤ text.length := by
  induction text with
  | nil => exact Nat.zero_le _
  | cons a text ih =>
    rw [partialPrefixLen]
    split_ifs
    · exact le_refl _
    · exact ih.trans (Nat.le_succ _)

/-- What is kept is a proper beginning of the marker. -/
theorem drop_partialPrefixLen (hm : marker ≠ []) (text : List α) :
    text.drop (text.length - partialPrefixLen marker text) <+: marker ∧
      partialPrefixLen marker text < marker.length := by
  induction text with
  | nil =>
    constructor
    · exact nil_prefix
    · exact length_pos_iff.mpr hm
  | cons a text ih =>
    rw [partialPrefixLen]
    split_ifs with hkeep
    · rw [length_cons, Nat.sub_self]
      exact ⟨hkeep.2, hkeep.1⟩
    · have hle := partialPrefixLen_le marker text
      rw [length_cons, Nat.sub_add_comm hle]
      exact ih

/-- No end of the text that begins the marker is longer. -/
theorem le_partialPrefixLen (hi : i < text.length) (hshort : text.length - i < marker.length)
    (h : text.drop i <+: marker) : text.length - i ≤ partialPrefixLen marker text := by
  induction text generalizing i with
  | nil => exact absurd hi (Nat.not_lt_zero i)
  | cons a text ih =>
    rw [partialPrefixLen]
    split_ifs with hkeep
    · rw [length_cons]
      omega
    · cases i with
      | zero => exact absurd ⟨hshort, h⟩ hkeep
      | succ i =>
        rw [length_cons] at hi hshort ⊢
        have hrec := ih (i := i) (by omega) (by omega) h
        omega

/-- No occurrence in a continuation starts before what is kept. -/
theorem emitted_le (hm : marker ≠ []) (hnone : find marker text = none)
    (h : OccursAt marker (text ++ rest) i) :
    text.length - partialPrefixLen marker text ≤ i := by
  by_cases hinside : i + marker.length ≤ text.length
  · exact absurd (h.of_append hinside) ((find_eq_none_iff hm).mp hnone i)
  · by_cases hi : i < text.length
    · have hpart : text.drop i <+: marker := by
        unfold OccursAt at h
        rw [drop_append_of_le_length hi.le] at h
        apply prefix_of_prefix_length_le (prefix_append _ _) h
        rw [length_drop]
        omega
      have hle := le_partialPrefixLen hi (by omega) hpart
      omega
    · omega

end Vllm.MarkerSearch
