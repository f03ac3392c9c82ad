import Mathlib.Data.List.DropRight

/-!
Python text as lists of characters: whitespace as `str.isspace` knows it, `strip`,
and what is left of a text when its whitespace is taken out.
-/
namespace Vllm.PyText

def isSpace (c : Char) : Bool :=
  let n := c.toNat
  (9 ≤ n && n ≤ 13) || (28 ≤ n && n ≤ 32) || n = 0x85 || n = 0xA0 || n = 0x1680 ||
    (0x2000 ≤ n && n ≤ 0x200A) || n = 0x2028 || n = 0x2029 || n = 0x202F || n = 0x205F || n = 0x3000

def strip (s : List Char) : List Char := (s.dropWhile isSpace).rdropWhile isSpace

def squeeze (s : List Char) : List Char := s.filter fun c => !isSpace c

def Blank (s : List Char) : Prop := squeeze s = []

instance (s : List Char) : Decidable (Blank s) := inferInstanceAs (Decidable (squeeze s = []))

variable {s t : List Char}

@[simp]
theorem squeeze_nil : squeeze [] = [] := rfl

@[simp]
theorem squeeze_append (s t : List Char) : squeeze (s ++ t) = squeeze s ++ squeeze t :=
  List.filter_append ..

theorem blank_append : Blank (s ++ t) ↔ Blank s ∧ Blank t := by
  unfold Blank
  rw [squeeze_append, List.append_eq_nil_iff]

theorem squeeze_dropWhile (s : List Char) : squeeze (s.dropWhile isSpace) = squeeze s := by
  induction s with
  | nil => rfl
  | cons c s ih =>
    by_cases hc : isSpace c
    · rw [List.dropWhile_cons_of_pos hc, ih]
      simp [squeeze, hc]
    · rw [List.dropWhile_cons_of_neg hc]

theorem squeeze_reverse (s : List Char) : squeeze s.reverse = (squeeze s).reverse :=
  List.filter_reverse ..

/-- Stripping changes only whitespace. -/
theorem squeeze_strip (s : List Char) : squeeze (strip s) = squeeze s := by
  have hright : ∀ t : List Char, squeeze (t.rdropWhile isSpace) = squeeze t := by
    intro t
    rw [List.rdropWhile, squeeze_reverse, squeeze_dropWhile, squeeze_reverse, List.reverse_reverse]
  rw [strip, hright, squeeze_dropWhile]

/-- Only whitespace strips to nothing. -/
theorem strip_eq_nil_iff : strip s = [] ↔ Blank s := by
  constructor
  · intro h
    unfold Blank
    rw [← squeeze_strip, h, squeeze_nil]
  · intro h
    have hall : ∀ c ∈ s, isSpace c := by
      intro c hc
      by_contra hspace
      have hmem : c ∈ squeeze s := List.mem_filter.mpr ⟨hc, by simpa using hspace⟩
      rw [h] at hmem
      cases hmem
    rw [strip, List.dropWhile_eq_nil_iff.mpr hall]
    rfl

end Vllm.PyText
