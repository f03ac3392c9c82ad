import Vllm.MarkerSearch

/-!
Parsers that take a value from the front of a text, as the crate `winnow` builds
them. The crate is not part of the repository: its parsers and combinators are a
parameter, and what it documents of them are laws. The input of a parser is
complete, or it is the beginning of one that may grow; then a parser that cannot
decide asks for more.
-/
namespace Vllm

open MarkerSearch

namespace Winnow

/-- How a parser fails: more input may help, another parser may, or neither. -/
inductive ErrMode where
  | incomplete
  | backtrack
  | cut
deriving DecidableEq, Repr

inductive Input where
  /-- A `&str`. -/
  | complete
  /-- A `Partial<&str>`. -/
  | growing
deriving DecidableEq

abbrev Parser (α : Type) := List Char → Except ErrMode (α × List Char)

def isMultispace (c : Char) : Bool := c = ' ' || c = '\t' || c = '\r' || c = '\n'

end Winnow

open Winnow in
/-- The crate. `seq` stands for `seq!` and `terminated`: one parser after the
other, where the second may be built from the value of the first. -/
class Winnow where
  literal (kind : Input) (tag : List Char) : Parser (List Char)
  multispace0 (kind : Input) : Parser (List Char)
  takeUntil (least : ℕ) (tag : List Char) : Parser (List Char)
  takeWhile (least : ℕ) (accepts : Char → Bool) : Parser (List Char)
  rest : Parser (List Char)
  eof : Parser Unit
  alt {α : Type} (p q : Parser α) : Parser α
  seq {α β : Type} (p : Parser α) (q : α → Parser β) : Parser β
  repeat0 {α : Type} (p : Parser α) : Parser (List α)

namespace Winnow

class Lawful [Winnow] : Prop where
  literal_complete : ∀ tag input, literal .complete tag input =
    if tag <+: input then .ok (tag, input.drop tag.length) else .error .backtrack
  /-- A beginning of the tag may grow into it. -/
  literal_growing : ∀ tag input, literal .growing tag input =
    if tag <+: input then .ok (tag, input.drop tag.length)
    else if input <+: tag then .error .incomplete else .error .backtrack
  multispace0_complete : ∀ input, multispace0 .complete input =
    .ok (input.takeWhile isMultispace, input.dropWhile isMultispace)
  /-- Whitespace that reaches the end of the input may go on. -/
  multispace0_growing : ∀ input, multispace0 .growing input =
    if input.dropWhile isMultispace = [] then .error .incomplete
    else .ok (input.takeWhile isMultispace, input.dropWhile isMultispace)
  takeUntil_none : ∀ least tag input, find tag input = none →
    takeUntil least tag input = .error .backtrack
  /-- Only the first occurrence counts. -/
  takeUntil_some : ∀ least tag input i, find tag input = some i →
    takeUntil least tag input =
      if i < least then .error .backtrack else .ok (input.take i, input.drop i)
  takeWhile_eq : ∀ least accepts input, takeWhile least accepts input =
    if (input.takeWhile accepts).length < least then .error .backtrack
    else .ok (input.takeWhile accepts, input.dropWhile accepts)
  rest_eq : ∀ input, rest input = .ok (input, [])
  eof_eq : ∀ input, eof input = if input = [] then .ok ((), []) else .error .backtrack
  /-- The second parser starts where the first one did. -/
  alt_backtrack : ∀ {α : Type} (p q : Parser α) input, p input = .error .backtrack →
    alt p q input = q input
  alt_of_ne : ∀ {α : Type} (p q : Parser α) input, p input ≠ .error .backtrack →
    alt p q input = p input
  seq_ok : ∀ {α β : Type} (p : Parser α) (q : α → Parser β) input a rest,
    p input = .ok (a, rest) → seq p q input = q a rest
  seq_error : ∀ {α β : Type} (p : Parser α) (q : α → Parser β) input e,
    p input = .error e → seq p q input = .error e
  /-- A value that cannot be read ends the repetition in front of it. -/
  repeat0_backtrack : ∀ {α : Type} (p : Parser α) input, p input = .error .backtrack →
    repeat0 p input = .ok ([], input)
  repeat0_ok : ∀ {α : Type} (p : Parser α) input a rest, p input = .ok (a, rest) →
    rest.length < input.length →
    repeat0 p input = (repeat0 p rest).map fun r => (a :: r.1, r.2)

def done {α : Type} (a : α) : Parser α := fun input => .ok (a, input)

/-! ### Parsers that never ask for more -/

variable {α β : Type} {p : Parser α} {q : α → Parser β} {i j : ℕ} {tag : List Char}

/-- On every input the parser reads a value and takes `i` characters or more, or it
leaves the input to another parser. -/
def Decides (p : Parser α) (i : ℕ) : Prop :=
  ∀ input, p input = .error .backtrack ∨
    ∃ a rest, p input = .ok (a, rest) ∧ rest.length + i ≤ input.length

theorem Decides.mono (h : Decides p i) (hle : j ≤ i) : Decides p j := by
  intro input
  refine (h input).imp_right ?_
  rintro ⟨a, rest, hok, hlen⟩
  exact ⟨a, rest, hok, by omega⟩

theorem decides_done (a : α) : Decides (done a) 0 := fun input => .inr ⟨a, input, rfl, le_rfl⟩

section
variable [Winnow] [Lawful]

open Lawful

theorem decides_literal (tag : List Char) : Decides (literal .complete tag) tag.length := by
  intro input
  rw [literal_complete]
  split_ifs with h
  · refine .inr ⟨tag, _, rfl, ?_⟩
    rw [List.length_drop]
    have := h.length_le
    omega
  · exact .inl rfl

theorem decides_multispace0 : Decides (multispace0 .complete) 0 := by
  intro input
  rw [multispace0_complete]
  exact .inr ⟨_, _, rfl, (List.dropWhile_suffix _).length_le⟩

theorem decides_takeUntil (least : ℕ) (tag : List Char) : Decides (takeUntil least tag) 0 := by
  intro input
  cases hfind : find tag input with
  | none => exact .inl (takeUntil_none least tag input hfind)
  | some i =>
    rw [takeUntil_some least tag input i hfind]
    split_ifs
    · exact .inl rfl
    · refine .inr ⟨_, _, rfl, ?_⟩
      rw [List.length_drop]
      omega

theorem decides_takeWhile (least : ℕ) (accepts : Char → Bool) :
    Decides (takeWhile least accepts) 0 := by
  intro input
  rw [takeWhile_eq]
  split_ifs
  · exact .inl rfl
  · exact .inr ⟨_, _, rfl, (List.dropWhile_suffix _).length_le⟩

theorem decides_eof : Decides eof 0 := by
  intro input
  rw [eof_eq]
  split_ifs
  · exact .inr ⟨(), [], rfl, Nat.zero_le _⟩
  · exact .inl rfl

/-- A sequence of deciding parsers decides. -/
theorem decides_seq (hp : Decides p i) (hq : ∀ a, Decides (q a) j) :
    Decides (seq p q) (i + j) := by
  intro input
  rcases hp input with hback | ⟨a, rest, hok, hlen⟩
  · exact .inl (seq_error p q input _ hback)
  · rw [seq_ok p q input a rest hok]
    refine (hq a rest).imp_right ?_
    rintro ⟨b, rest', hok', hlen'⟩
    exact ⟨b, rest', hok', by omega⟩

/-- A repeated parser must take something, or the repetition has no end. -/
theorem decides_repeat0 (hp : Decides p i) (hi : 0 < i) : Decides (repeat0 p) 0 := by
  intro input
  -- each round leaves less of the input
  induction hn : input.length using Nat.strong_induction_on generalizing input with
  | _ n ih =>
    rcases hp input with hback | ⟨a, rest, hok, hlen⟩
    · exact .inr ⟨[], input, repeat0_backtrack p input hback, by omega⟩
    · rw [repeat0_ok p input a rest hok (by omega)]
      rcases ih rest.length (by omega) rest rfl with hback | ⟨as, rest', hok', hlen'⟩
      · rw [hback]
        exact .inl rfl
      · rw [hok']
        exact .inr ⟨a :: as, rest', rfl, by omega⟩
end

/-! ### An implementation -/

/-- At most `fuel` rounds of `repeat0`; one that takes nothing is an error. -/
def repeatUpTo (p : Parser α) : ℕ → Parser (List α)
  | 0, _ => .error .backtrack
  | fuel + 1, input =>
    match p input with
    | .error .backtrack => .ok ([], input)
    | .error e => .error e
    | .ok (a, rest) =>
      if rest.length < input.length then
        (repeatUpTo p fuel rest).map fun r => (a :: r.1, r.2)
      else
        .error .backtrack

theorem repeatUpTo_eq (p : Parser α) {fuel : ℕ} {input : List Char} (h : input.length < fuel) :
    repeatUpTo p fuel input = repeatUpTo p (input.length + 1) input := by
  induction fuel using Nat.strong_induction_on generalizing input with
  | _ fuel ih =>
    obtain ⟨fuel, rfl⟩ := Nat.exists_eq_add_one_of_ne_zero (Nat.ne_zero_of_lt h)
    rw [repeatUpTo, repeatUpTo]
    cases hp : p input with
    | error e => cases e <;> rfl
    | ok r =>
      obtain ⟨a, rest⟩ := r
      dsimp only
      split_ifs with hlt
      · rw [ih fuel (Nat.lt_succ_self _) (by omega)]
        rcases Nat.lt_or_ge input.length fuel with hlen | hlen
        · rw [ih input.length (by omega) hlt]
        · rw [show input.length = fuel by omega, ih fuel (Nat.lt_succ_self _) (by omega)]
      · rfl

@[reducible]
def reference : Winnow where
  literal kind tag input :=
    if tag <+: input then .ok (tag, input.drop tag.length)
    else if kind = .growing ∧ input <+: tag then .error .incomplete
    else .error .backtrack
  multispace0 kind input :=
    if kind = .growing ∧ input.dropWhile isMultispace = [] then .error .incomplete
    else .ok (input.takeWhile isMultispace, input.dropWhile isMultispace)
  takeUntil least tag input :=
    match find tag input with
    | none => .error .backtrack
    | some i => if i < least then .error .backtrack else .ok (input.take i, input.drop i)
  takeWhile least accepts input :=
    if (input.takeWhile accepts).length < least then .error .backtrack
    else .ok (input.takeWhile accepts, input.dropWhile accepts)
  rest input := .ok (input, [])
  eof input := if input = [] then .ok ((), []) else .error .backtrack
  alt p q input :=
    match p input with
    | .error .backtrack => q input
    | r => r
  seq p q input :=
    match p input with
    | .error e => .error e
    | .ok (a, rest) => q a rest
  repeat0 p input := repeatUpTo p (input.length + 1) input

/-- The laws can be satisfied. -/
theorem reference_lawful : @Lawful reference := by
  apply @Lawful.mk reference
  case literal_complete => simp [literal]
  case literal_growing => simp [literal]
  case multispace0_complete => simp [multispace0]
  case multispace0_growing => simp [multispace0]
  case takeUntil_none =>
    intro least tag input h
    simp [takeUntil, h]
  case takeUntil_some =>
    intro least tag input i h
    simp [takeUntil, h]
  case takeWhile_eq => exact fun _ _ _ => rfl
  case rest_eq => exact fun _ => rfl
  case eof_eq => exact fun _ => rfl
  case alt_backtrack =>
    intro α p q input h
    simp [alt, h]
  case alt_of_ne =>
    intro α p q input h
    cases hp : p input with
    | ok r => simp [alt, hp]
    | error e =>
      cases e with
      | backtrack => exact absurd hp h
      | incomplete | cut => simp [alt, hp]
  case seq_ok =>
    intro α β p q input a rest h
    simp [seq, h]
  case seq_error =>
    intro α β p q input e h
    simp [seq, h]
  case repeat0_backtrack =>
    intro α p input h
    simp [repeat0, repeatUpTo, h]
  case repeat0_ok =>
    intro α p input a rest h hlt
    simp only [repeat0]
    rw [repeatUpTo, h]
    dsimp only
    rw [if_pos hlt, repeatUpTo_eq p hlt]

end Winnow

end Vllm
