import Mathlib.Data.List.Infix

/-!
Lossy decoding of UTF-8: every longest beginning of a character that cannot be
finished becomes one replacement character. The bytes are read one by one; what is
read of an unfinished character is the state, so the decoding of a text that grows is
its settled part and a decoding that starts from the state.
-/
namespace Vllm.Utf8Lossy

open List

def replacement : Char := '\uFFFD'

/-! ### Reading bytes -/

inductive Verdict where
  | complete (c : Char)
  | incomplete
  | invalid

def isContinuation (b : UInt8) : Prop := 0x80 ≤ b ∧ b ≤ 0xBF

instance (b : UInt8) : Decidable (isContinuation b) := inferInstanceAs (Decidable (_ ∧ _))

/-- The second bytes that may follow a first one: no overlong form, no surrogate, nothing after
the last code point. -/
def secondAllowed (b₀ b₁ : UInt8) : Prop :=
  isContinuation b₁ ∧ (b₀ = 0xE0 → 0xA0 ≤ b₁) ∧ (b₀ = 0xED → b₁ ≤ 0x9F) ∧
    (b₀ = 0xF0 → 0x90 ≤ b₁) ∧ (b₀ = 0xF4 → b₁ ≤ 0x8F)

instance (b₀ b₁ : UInt8) : Decidable (secondAllowed b₀ b₁) := inferInstanceAs (Decidable (_ ∧ _))

/-- The code point that the bits of a first byte and its continuations spell. -/
def codePoint (bits : UInt8) (continuations : List UInt8) : Char :=
  Char.ofNat (continuations.foldl (fun code b => code * 64 + b.toNat % 64) bits.toNat)

/-- What the bytes are, when all but the last are known to begin a character. -/
def classify : List UInt8 → Verdict
  | [b₀] =>
    if b₀ < 0x80 then .complete (codePoint b₀ [])
    else if 0xC2 ≤ b₀ ∧ b₀ ≤ 0xF4 then .incomplete
    else .invalid
  | [b₀, b₁] =>
    if secondAllowed b₀ b₁ then
      if b₀ ≤ 0xDF then .complete (codePoint (b₀ % 32) [b₁]) else .incomplete
    else .invalid
  | [b₀, b₁, b₂] =>
    if isContinuation b₂ then
      if b₀ ≤ 0xEF then .complete (codePoint (b₀ % 16) [b₁, b₂]) else .incomplete
    else .invalid
  | [b₀, b₁, b₂, b₃] =>
    if isContinuation b₃ then .complete (codePoint (b₀ % 8) [b₁, b₂, b₃]) else .invalid
  | _ => .invalid

def first (b : UInt8) : List Char × List UInt8 :=
  match classify [b] with
  | .complete c => ([c], [])
  | .incomplete => ([], [b])
  | .invalid => ([replacement], [])

/-- A byte after `pending`, the beginning of a character. A byte that does not continue it is
read again from the start. -/
def step (pending : List UInt8) (b : UInt8) : List Char × List UInt8 :=
  if pending = [] then first b
  else
    match classify (pending ++ [b]) with
    | .complete c => ([c], [])
    | .incomplete => ([], pending ++ [b])
    | .invalid => (replacement :: (first b).1, (first b).2)

def run (pending : List UInt8) : List UInt8 → List Char × List UInt8
  | [] => ([], pending)
  | b :: bytes =>
    let rest := run (step pending b).2 bytes
    ((step pending b).1 ++ rest.1, rest.2)

def close (pending : List UInt8) : List Char := if pending = [] then [] else [replacement]

def lossyFrom (pending bytes : List UInt8) : List Char :=
  (run pending bytes).1 ++ close (run pending bytes).2

def lossy (bytes : List UInt8) : List Char := lossyFrom [] bytes

/-- What no later byte changes. -/
def settled (bytes : List UInt8) : List Char := (run [] bytes).1

/-- The bytes of the last character while it may still be finished. -/
def unfinished (bytes : List UInt8) : List UInt8 := (run [] bytes).2

def complete (bytes : List UInt8) : List UInt8 :=
  bytes.take (bytes.length - (unfinished bytes).length)

/-! ### Texts that grow -/

variable {pending bytes more : List UInt8} {b : UInt8}

/-- Decoding goes on from the pending bytes. -/
theorem run_append (pending bytes more : List UInt8) :
    run pending (bytes ++ more) = ((run pending bytes).1 ++ (run (run pending bytes).2 more).1,
      (run (run pending bytes).2 more).2) := by
  induction bytes generalizing pending with
  | nil => simp [run]
  | cons b bytes ih =>
    rw [cons_append, run, ih]
    simp [run]

theorem lossy_eq (bytes : List UInt8) : lossy bytes = settled bytes ++ close (unfinished bytes) :=
  rfl

/-- More bytes change only the end that was unfinished. -/
theorem lossy_append (bytes more : List UInt8) :
    lossy (bytes ++ more) = settled bytes ++ lossyFrom (unfinished bytes) more := by
  unfold lossy lossyFrom
  rw [run_append, append_assoc]
  rfl

@[simp] theorem lossy_nil : lossy [] = [] := rfl

theorem unfinished_append (bytes more : List UInt8) :
    unfinished (bytes ++ more) = (run (unfinished bytes) more).2 := by
  unfold unfinished
  rw [run_append]

/-- After complete characters the decoding starts anew. -/
theorem lossy_append_of_unfinished (h : unfinished bytes = []) :
    lossy (bytes ++ more) = lossy bytes ++ lossy more := by
  rw [lossy_append, lossy_eq bytes, h, close, if_pos rfl, append_nil]
  rfl

/-- An unfinished character shows as a replacement character at the end. -/
theorem getLast_lossy_of_unfinished (h : unfinished bytes ≠ []) :
    (lossy bytes).getLast? = some replacement := by
  rw [lossy_eq, close, if_neg h]
  exact getLast?_concat

theorem settled_concat (bytes : List UInt8) (b : UInt8) :
    settled (bytes ++ [b]) = settled bytes ++ (step (unfinished bytes) b).1 := by
  unfold settled
  rw [run_append]
  simp [run, unfinished]

theorem unfinished_concat (bytes : List UInt8) (b : UInt8) :
    unfinished (bytes ++ [b]) = (step (unfinished bytes) b).2 := by
  rw [unfinished_append]
  rfl

/-- A byte ends a character, continues the unfinished one or begins the next. -/
theorem step_cases (pending : List UInt8) (b : UInt8) :
    ((step pending b).1 ≠ [] ∧ (step pending b).2 = []) ∨ step pending b = ([], pending ++ [b]) ∨
      step pending b = (close pending, [b]) := by
  unfold step close
  split_ifs with hnil
  · unfold first
    cases classify [b] <;> simp [hnil]
  · cases classify (pending ++ [b]) with
    | complete c => simp
    | incomplete => simp
    | invalid =>
      unfold first
      cases classify [b] <;> simp

/-- What has been read of the last character reads as the beginning of one. -/
theorem run_unfinished (bytes : List UInt8) :
    run [] (unfinished bytes) = ([], unfinished bytes) := by
  induction bytes using List.reverseRecOn with
  | nil => rfl
  | append_singleton bytes b ih =>
    have hfirst : run [] (first b).2 = ([], (first b).2) := by
      unfold first
      cases hb : classify [b] with
      | complete c => rfl
      | incomplete => simp [run, step, first, hb]
      | invalid => rfl
    rw [unfinished_concat, step]
    split_ifs with hnil
    · exact hfirst
    · cases hclass : classify (unfinished bytes ++ [b]) with
      | complete c => rfl
      | incomplete =>
        dsimp only
        rw [run_append, ih]
        simp [run, step, hnil, hclass]
      | invalid => exact hfirst

/-- Continuing from the pending bytes is decoding them again with the rest. -/
theorem lossyFrom_unfinished (bytes more : List UInt8) :
    lossyFrom (unfinished bytes) more = lossy (unfinished bytes ++ more) := by
  have hrun := run_unfinished bytes
  rw [lossy_append, settled, hrun, nil_append]
  congr 1
  exact (congrArg Prod.snd hrun).symm

/-- The bytes are those of the settled characters and of the unfinished one. -/
theorem exists_eq_append_unfinished (bytes : List UInt8) :
    ∃ front, bytes = front ++ unfinished bytes ∧ lossy front = settled bytes := by
  induction bytes using List.reverseRecOn with
  | nil => exact ⟨[], rfl, rfl⟩
  | append_singleton bytes b ih =>
    by_cases hdone : unfinished (bytes ++ [b]) = []
    · refine ⟨bytes ++ [b], by rw [hdone, append_nil], ?_⟩
      rw [lossy_eq, hdone, close, if_pos rfl, append_nil]
    · obtain ⟨front, hfront, hlossy⟩ := ih
      rw [unfinished_concat] at hdone ⊢
      rw [settled_concat]
      rcases step_cases (unfinished bytes) b with ⟨-, hnil⟩ | hnext | hbegin
      · exact absurd hnil hdone
      · refine ⟨front, ?_, ?_⟩
        · rw [hnext, ← append_assoc, ← hfront]
        · rw [hnext, append_nil, hlossy]
      · refine ⟨bytes, ?_, ?_⟩
        · rw [hbegin]
        · rw [hbegin, lossy_eq]

/-- Bytes are complete characters and an unfinished one. -/
theorem eq_complete_append_unfinished (bytes : List UInt8) :
    bytes = complete bytes ++ unfinished bytes ∧ lossy (complete bytes) = settled bytes := by
  obtain ⟨front, hfront, hlossy⟩ := exists_eq_append_unfinished bytes
  have hcomplete : complete bytes = front := by
    have hlen := congrArg List.length hfront
    rw [length_append] at hlen
    rw [complete, hlen, Nat.add_sub_cancel]
    exact (congrArg (List.take front.length) hfront).trans take_left
  rw [hcomplete]
  exact ⟨hfront, hlossy⟩

theorem lossy_eq_nil_iff : lossy bytes = [] ↔ bytes = [] := by
  constructor
  · intro h
    induction bytes using List.reverseRecOn with
    | nil => rfl
    | append_singleton bytes b _ =>
      rw [lossy_eq, append_eq_nil_iff, settled_concat, unfinished_concat] at h
      obtain ⟨hsettled, hclose⟩ := h
      have hout := (append_eq_nil_iff.mp hsettled).2
      rcases step_cases (unfinished bytes) b with ⟨hne, -⟩ | hnext | hbegin
      · exact absurd hout hne
      · rw [hnext] at hclose
        simp [close] at hclose
      · rw [hbegin] at hclose
        simp [close] at hclose
  · intro h
    rw [h, lossy_nil]

/-! ### Where a character begins -/

theorem isContinuation_of_classify (hpending : pending ≠ [])
    (h : classify (pending ++ [b]) ≠ .invalid) : isContinuation b := by
  rcases pending with _ | ⟨b₀, _ | ⟨b₁, _ | ⟨b₂, _ | ⟨b₃, pending⟩⟩⟩⟩
  · exact absurd rfl hpending
  · by_contra hb
    apply h
    simp [classify, secondAllowed, hb]
  · by_contra hb
    apply h
    simp [classify, hb]
  · by_contra hb
    apply h
    simp [classify, hb]
  · exact absurd (by simp [classify]) h

theorem not_isContinuation_of_classify (h : classify [b] ≠ .invalid) : ¬ isContinuation b := by
  intro hb
  apply h
  obtain ⟨hlow, hhigh⟩ := hb
  have hnotAscii : ¬ b < 0x80 := by grind
  have hnotLead : ¬ (0xC2 ≤ b ∧ b ≤ 0xF4) := by grind
  rw [classify, if_neg hnotAscii, if_neg hnotLead]

/-- A byte that may begin a character ends whatever stands before it. -/
theorem step_of_begins (hb : classify [b] ≠ .invalid) (pending : List UInt8) :
    step pending b = (close pending ++ (first b).1, (first b).2) := by
  unfold step close
  split_ifs with hnil
  · rfl
  · have hinvalid : classify (pending ++ [b]) = .invalid := by
      by_contra h
      exact not_isContinuation_of_classify hb (isContinuation_of_classify hnil h)
    rw [hinvalid]
    rfl

/-- A text without replacement characters reads the same after any bytes. -/
theorem run_of_clean (hne : bytes ≠ []) (hclean : replacement ∉ lossy bytes)
    (pending : List UInt8) :
    run pending bytes = (close pending ++ settled bytes, unfinished bytes) := by
  rcases bytes with _ | ⟨b, bytes⟩
  · exact absurd rfl hne
  · have hb : classify [b] ≠ .invalid := by
      intro hinvalid
      apply hclean
      simp [lossy, lossyFrom, run, step, first, hinvalid]
    have hfirst := step_of_begins hb []
    have hstep := step_of_begins hb pending
    unfold settled unfinished
    rw [run, run, hfirst, hstep]
    simp [close]

/-- Text without replacement characters ends between characters. -/
theorem unfinished_of_clean (hclean : replacement ∉ lossy bytes) : unfinished bytes = [] := by
  by_contra h
  exact hclean (mem_of_getLast? (getLast_lossy_of_unfinished h))

/-- After such a text no character is unfinished, and the last one is its last. -/
theorem append_of_clean (bytes : List UInt8) (hne : more ≠ []) (hclean : replacement ∉ lossy more) :
    unfinished (bytes ++ more) = [] ∧ (lossy (bytes ++ more)).getLast? ≠ some replacement := by
  have hdone := unfinished_of_clean hclean
  have hrun := run_of_clean hne hclean (unfinished bytes)
  have hunfinished : unfinished (bytes ++ more) = [] := by
    rw [unfinished_append, hrun, hdone]
  have hmore : settled more = lossy more := by
    rw [lossy_eq, hdone, close, if_pos rfl, append_nil]
  refine ⟨hunfinished, ?_⟩
  rw [lossy_append, lossyFrom, hrun, hdone, hmore, close, close, if_pos (rfl : [] = []),
    append_nil, ← append_assoc,
    getLast?_append_of_ne_nil _ (mt lossy_eq_nil_iff.mp hne)]
  intro hlast
  exact hclean (mem_of_getLast? hlast)

end Vllm.Utf8Lossy
