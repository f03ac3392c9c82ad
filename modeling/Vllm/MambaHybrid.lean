import Vllm.CacheManagers

/-!
The recurrent state of one request under the align mode of the V2 worker. The
state lies in a column of the block table that depends on the last step: on the
running block, and on how many drafts of a speculative row were accepted. Two
kernels copy it between columns at block boundaries.
-/
namespace Vllm.MambaHybrid

open CacheManagers List

variable {σ τ : Type*}

/-- One request of `MambaHybridModelState`, with a temporal state in every column
of its table (distinct columns are distinct blocks) and the tokens computed. -/
structure ModelState (σ τ : Type*) where
  stateIdx : ℤ
  numAccepted : ℕ
  cols : ℤ → σ
  computed : List τ

/-- The tokens of the request in one step. The last `numDraft` are drafts. -/
structure Row (τ : Type*) where
  tokens : List τ
  numDraft : ℕ
  numSampled : ℕ

/-- `spec_decode_mask` of `prepare_attn`. -/
def Row.isSpec (row : Row τ) : Bool :=
  decide (0 < row.numDraft) && decide (row.tokens.length = row.numDraft + 1)

/-- The tokens that count as computed: rejected drafts do not. -/
def Row.valid (row : Row τ) : List τ :=
  if row.isSpec then row.tokens.take row.numSampled else row.tokens

def stateAfter (next : σ → τ → σ) (zero : σ) (tokens : List τ) : σ := tokens.foldl next zero

namespace ModelState

variable (blockSize : ℕ) (next : σ → τ → σ) (zero : σ) (s : ModelState σ τ) (row : Row τ)

def addRequest : ModelState σ τ :=
  { s with numAccepted := 1, stateIdx := ((s.computed.length : ℤ) - 1) / blockSize }

def nextIdx (n : ℕ) : ℤ := (cdiv (s.computed.length + n) blockSize : ℤ) - 1

/-- `preprocess_mamba_align_fused_kernel` and the copy that follows it. -/
def preprocessState (n : ℕ) : ModelState σ τ :=
  let srcCol := s.stateIdx
  let srcOff := s.numAccepted - 1
  let dstCol := s.nextIdx blockSize n
  if 0 ≤ srcCol ∧ srcCol ≠ dstCol then
    { s with
      stateIdx := dstCol
      numAccepted := 1
      cols := Function.update s.cols dstCol (s.cols (srcCol + srcOff)) }
  else { s with stateIdx := dstCol }

def startState : σ :=
  -- The state a row starts from. A row without computed tokens has none.
  if row.isSpec then s.cols (s.stateIdx + (s.numAccepted - 1 : ℕ))
  else if s.computed.isEmpty then zero else s.cols s.stateIdx

def forward : ModelState σ τ :=
  -- A speculative row leaves a state per token, any other row the last one.
  let start := s.startState zero row
  { s with
    cols := fun col =>
      if row.isSpec then
        if s.stateIdx ≤ col ∧ col < s.stateIdx + row.tokens.length then
          (row.tokens.take (col - s.stateIdx + 1).toNat).foldl next start
        else s.cols col
      else if col = s.stateIdx then row.tokens.foldl next start else s.cols col }

/-- `postprocess_state` with `postprocess_mamba_fused_kernel`. -/
def postprocessState : ModelState σ τ :=
  let computed := s.computed ++ row.valid
  let numAccepted := max row.numSampled 1
  let running : ℤ := computed.length - numAccepted + 1
  let aligned := computed.length / blockSize * blockSize
  if running ≤ aligned then
    let bias := aligned - running
    let dest : ℤ := (aligned / blockSize : ℕ) - 1
    { s with
      computed
      numAccepted := if s.stateIdx = dest then 1 else numAccepted
      cols := if s.stateIdx = dest ∧ bias = 0 then s.cols
        else Function.update s.cols dest (s.cols (s.stateIdx + bias)) }
  else { s with computed, numAccepted }

def step : ModelState σ τ :=
  ((s.preprocessState blockSize row.tokens.length).forward next zero row).postprocessState
    blockSize row

end ModelState

open ModelState

/-! ### Runs -/

/-- A prefill chunk that samples at its end or not at all, or a decode row behind
computed tokens of whose drafts any number is rejected. -/
structure Row.Valid (s : ModelState σ τ) (row : Row τ) : Prop where
  nonempty : row.tokens ≠ []
  sampled : row.numSampled ≤ row.numDraft + 1
  kind : row.numDraft = 0 ∨
    row.tokens.length = row.numDraft + 1 ∧ 1 ≤ row.numSampled ∧ s.computed ≠ []

/-- A row that is not speculative finds the state of the last step in the running
column: no draft was accepted there, or the row crosses into another block. -/
def RowSafe (blockSize : ℕ) (s : ModelState σ τ) (row : Row τ) : Prop :=
  row.isSpec = false → s.computed ≠ [] →
    s.numAccepted = 1 ∨ s.stateIdx ≠ s.nextIdx blockSize row.tokens.length

/-- The request is added again when its state is where `add_request` puts it. -/
def ReaddSafe (blockSize : ℕ) (s : ModelState σ τ) : Prop :=
  blockSize ∣ s.computed.length ∨
    s.numAccepted = 1 ∧ s.stateIdx = ((s.computed.length : ℤ) - 1) / blockSize

/-- The states of one request from its admission at a prefix hit on. -/
inductive Reachable (blockSize : ℕ) (next : σ → τ → σ) (zero : σ) : ModelState σ τ → Prop where
  | added (s : ModelState σ τ)
      (hhit : s.computed ≠ [] →
        s.cols (((s.computed.length : ℤ) - 1) / blockSize) = stateAfter next zero s.computed) :
      Reachable blockSize next zero (s.addRequest blockSize)
  | step {s : ModelState σ τ} {row : Row τ} (h : Reachable blockSize next zero s)
      (hrow : row.Valid s) (hsafe : RowSafe blockSize s row) :
      Reachable blockSize next zero (s.step blockSize next zero row)
  | readd {s : ModelState σ τ} (h : Reachable blockSize next zero s)
      (hsafe : ReaddSafe blockSize s) : Reachable blockSize next zero (s.addRequest blockSize)

/-! ### Where the state lies -/

variable {blockSize : ℕ} {next : σ → τ → σ} {zero : σ} {s : ModelState σ τ} {row : Row τ}

/-- Between steps the state of the computed tokens lies behind the accepted
drafts of the running column, and a full block has it in its own column. -/
structure Live (blockSize : ℕ) (next : σ → τ → σ) (zero : σ) (s : ModelState σ τ) : Prop where
  idx : 0 ≤ s.stateIdx
  running : s.cols (s.stateIdx + (s.numAccepted - 1 : ℕ)) = stateAfter next zero s.computed
  full : blockSize ∣ s.computed.length →
    s.cols ((s.computed.length / blockSize : ℕ) - 1) = stateAfter next zero s.computed

theorem pred_ediv_of_dvd (hb : 0 < blockSize) {c : ℕ} (hdvd : blockSize ∣ c) :
    ((c : ℤ) - 1) / blockSize = (c / blockSize : ℕ) - 1 := by
  obtain ⟨k, rfl⟩ := hdvd
  have hsplit : ((blockSize * k : ℕ) : ℤ) - 1 = (blockSize - 1) + blockSize * (k - 1) := by
    push_cast
    ring
  rw [hsplit, Int.add_mul_ediv_left _ _ (by omega), Int.ediv_eq_zero_of_lt (by omega) (by omega),
    Int.zero_add, Nat.mul_div_cancel_left k hb]

theorem Row.isSpec_iff :
    row.isSpec = true ↔ 0 < row.numDraft ∧ row.tokens.length = row.numDraft + 1 := by
  simp [Row.isSpec]

/-- As many tokens count as were sampled, or all of them and at most one was. -/
theorem Row.Valid.length_valid (hrow : row.Valid s) :
    (row.isSpec = true ∧ row.valid.length = max row.numSampled 1 ∨
      row.isSpec = false ∧ row.valid.length = row.tokens.length ∧ max row.numSampled 1 = 1) ∧
    0 < row.valid.length ∧ row.valid.length ≤ row.tokens.length := by
  have hlen := length_pos_iff.mpr hrow.nonempty
  have hkind := hrow.kind
  have hsampled := hrow.sampled
  cases hspec : row.isSpec with
  | true =>
    have hdraft := Row.isSpec_iff.mp hspec
    rw [Row.valid, if_pos hspec, length_take]
    refine ⟨.inl ⟨rfl, ?_⟩, ?_, ?_⟩ <;> omega
  | false =>
    have hdraft := mt Row.isSpec_iff.mpr (by simpa using hspec)
    simp only [Row.valid, hspec]
    simp
    omega

theorem preprocessState_computed (n : ℕ) :
    (s.preprocessState blockSize n).computed = s.computed := by
  dsimp only [preprocessState]
  split_ifs <;> rfl

theorem preprocessState_stateIdx (n : ℕ) :
    (s.preprocessState blockSize n).stateIdx = s.nextIdx blockSize n := by
  dsimp only [preprocessState]
  split_ifs <;> rfl

/-- The copy before the step brings the state of the computed tokens to where the row starts from.
-/
theorem Live.startState_eq (h : Live blockSize next zero s) (hsafe : RowSafe blockSize s row)
    (hne : s.computed ≠ []) :
    (s.preprocessState blockSize row.tokens.length).startState zero row =
      stateAfter next zero s.computed := by
  have hidx := h.idx
  by_cases hcross : s.stateIdx = s.nextIdx blockSize row.tokens.length
  · have hpre : s.preprocessState blockSize row.tokens.length = s := by
      simp [preprocessState, ← hcross]
    rw [hpre]
    cases hspec : row.isSpec with
    | true => simpa [startState, hspec] using h.running
    | false =>
      have haccepted := (hsafe hspec hne).resolve_right (not_not.mpr hcross)
      simpa [startState, hspec, hne, haccepted] using h.running
  · simp [preprocessState, startState, hidx, hcross, hne, h.running]

/-- The states a row leaves, as far as its tokens count: one for each of the last
`numAccepted` tokens, from the running column on. -/
theorem forward_cols (hrow : row.Valid s)
    (hstart : s.startState zero row = stateAfter next zero s.computed) {back : ℕ}
    (hback : back < max row.numSampled 1) :
    (s.forward next zero row).cols (s.stateIdx + (max row.numSampled 1 - 1 - back : ℕ)) =
      stateAfter next zero ((s.computed ++ row.valid).take
        ((s.computed ++ row.valid).length - back)) := by
  obtain ⟨hlen, hpos, hle⟩ := hrow.length_valid
  have htake : (s.computed ++ row.valid).take ((s.computed ++ row.valid).length - back) =
      s.computed ++ row.valid.take (row.valid.length - back) := by
    rw [take_append, take_of_length_le (by simp; omega), length_append]
    congr 2
    omega
  rw [htake, stateAfter, foldl_append]
  dsimp only [forward]
  rw [hstart]
  rcases hlen with ⟨hspec, hlen⟩ | ⟨hspec, -, hone⟩
  · have hvalid : row.valid = row.tokens.take row.numSampled := if_pos hspec
    rw [if_pos hspec, if_pos (by omega), hlen, hvalid, take_take]
    rw [hvalid, length_take] at hlen
    congr 2
    omega
  · obtain rfl : back = 0 := by omega
    simp [hspec, hone, Row.valid, stateAfter]

section
variable {total accepted k : ℕ} (htotal : (s.computed ++ row.valid).length = total)
  (haccepted : max row.numSampled 1 = accepted) (hk : total / blockSize = k) (hb : 0 < blockSize)

include htotal haccepted hk hb

/-- The kernel saves the state at the last block boundary when it is among those
of the last accepted tokens. -/
theorem postprocessState_cols (col : ℤ) : (s.postprocessState blockSize row).cols col =
      if total + 1 ≤ k * blockSize + accepted ∧ col = k - 1
      then s.cols (s.stateIdx + (accepted - 1 - (total - k * blockSize) : ℕ)) else s.cols col := by
  have hle : k * blockSize ≤ total := hk ▸ Nat.div_mul_le_self _ _
  have hpos : 1 ≤ accepted := haccepted ▸ le_max_right _ _
  dsimp only [postprocessState]
  rw [htotal, haccepted, hk, Nat.mul_div_cancel k hb]
  by_cases hcopy : total + 1 ≤ k * blockSize + accepted
  · have hbias : ((k * blockSize : ℕ) : ℤ) - (total - accepted + 1) =
        (accepted - 1 - (total - k * blockSize) : ℕ) := by omega
    rw [if_pos (by omega)]
    simp only [hbias, hcopy, true_and]
    split_ifs with hsame hcol hcol
    · rw [hcol, hsame.2, hsame.1, Int.add_zero]
    · rfl
    · rw [hcol, Function.update_self]
    · exact Function.update_of_ne hcol _ _
  · rw [if_neg (by omega), if_neg fun h => hcopy h.1]

/-- The accepted drafts are counted anew when the running column itself became the saved one. -/
theorem postprocessState_numAccepted : (s.postprocessState blockSize row).numAccepted =
      if total + 1 ≤ k * blockSize + accepted ∧ s.stateIdx = k - 1 then 1 else accepted := by
  dsimp only [postprocessState]
  rw [htotal, haccepted, hk, Nat.mul_div_cancel k hb]
  by_cases hcopy : total + 1 ≤ k * blockSize + accepted
  · rw [if_pos (by omega)]
    simp [hcopy]
  · rw [if_neg (by omega), if_neg fun h => hcopy h.1]

variable (hlast : ∀ back < accepted, s.cols (s.stateIdx + (accepted - 1 - back : ℕ)) =
  stateAfter next zero ((s.computed ++ row.valid).take (total - back)))

include hlast

/-- The state at the block boundary that the step passes is copied into the column of that block. -/
theorem postprocessState_saved (hcopy : total + 1 ≤ k * blockSize + accepted) :
    (s.postprocessState blockSize row).cols (k - 1) =
      stateAfter next zero ((s.computed ++ row.valid).take (k * blockSize)) := by
  have hle : k * blockSize ≤ total := hk ▸ Nat.div_mul_le_self _ _
  rw [postprocessState_cols htotal haccepted hk hb, if_pos ⟨hcopy, rfl⟩, hlast _ (by omega),
    Nat.sub_sub_self hle]

/-- The running column is that of the tokens with all drafts, so the kernel
copies onto it only when every token counts and ends a block. -/
theorem postprocessState_running {d : ℕ} (hidx : s.stateIdx = d - 1)
    (hcover : total ≤ d * blockSize) :
    (s.postprocessState blockSize row).cols (s.stateIdx +
        ((s.postprocessState blockSize row).numAccepted - 1 : ℕ)) =
      stateAfter next zero (s.computed ++ row.valid) := by
  have htake : (s.computed ++ row.valid).take total = s.computed ++ row.valid :=
    take_of_length_le htotal.le
  have hpos : 1 ≤ accepted := haccepted ▸ le_max_right _ _
  have hle : k * blockSize ≤ total := hk ▸ Nat.div_mul_le_self _ _
  have hkd : k ≤ d := Nat.le_of_mul_le_mul_right (hle.trans hcover) hb
  rw [postprocessState_numAccepted htotal haccepted hk hb]
  by_cases hend : total + 1 ≤ k * blockSize + accepted ∧ s.stateIdx = k - 1
  · obtain rfl : k = d := by omega
    have hsaved := postprocessState_saved htotal haccepted hk hb hlast hend.1
    rw [hle.antisymm hcover, htake] at hsaved
    simpa [hend] using hsaved
  · rw [if_neg hend, postprocessState_cols htotal haccepted hk hb, if_neg (by omega), ← htake]
    exact hlast 0 hpos
end

theorem postprocessState_computed :
    (s.postprocessState blockSize row).computed = s.computed ++ row.valid := by
  dsimp only [postprocessState]
  split_ifs <;> rfl

theorem postprocessState_stateIdx : (s.postprocessState blockSize row).stateIdx = s.stateIdx := by
  dsimp only [postprocessState]
  split_ifs <;> rfl

/-- The state at a block boundary that the step reached, or passed with a state
for each token, lies in the column of the block it ends. -/
def Saved (blockSize : ℕ) (next : σ → τ → σ) (zero : σ) (s t : ModelState σ τ) (row : Row τ) :
    Prop :=
  s.computed.length < t.computed.length / blockSize * blockSize →
    row.isSpec = true ∨ blockSize ∣ t.computed.length →
    t.cols ((t.computed.length / blockSize : ℕ) - 1) =
      stateAfter next zero (t.computed.take (t.computed.length / blockSize * blockSize))

/-- A step that starts from the right state leaves the right states. -/
theorem step_live (hb : 0 < blockSize) (hrow : row.Valid s)
    (hstart : (s.preprocessState blockSize row.tokens.length).startState zero row =
      stateAfter next zero s.computed) :
    Live blockSize next zero (s.step blockSize next zero row) ∧
      Saved blockSize next zero s (s.step blockSize next zero row) row := by
  set u := s.preprocessState blockSize row.tokens.length
  set f := u.forward next zero row
  have hcomputed : f.computed = s.computed := preprocessState_computed _
  have hidx : f.stateIdx = s.nextIdx blockSize row.tokens.length := preprocessState_stateIdx _
  have hvalid : row.Valid u := ⟨hrow.nonempty, hrow.sampled, hcomputed ▸ hrow.kind⟩
  have hstart' : u.startState zero row = stateAfter next zero u.computed :=
    hstart.trans (congrArg _ hcomputed.symm)
  obtain ⟨hlen, hpos, hle⟩ := hrow.length_valid
  have hcover := le_cdiv_mul (s.computed.length + row.tokens.length) hb
  have htotal : (f.computed ++ row.valid).length = s.computed.length + row.valid.length := by
    rw [length_append, hcomputed]
  have hsaved := postprocessState_saved (s := f) htotal rfl rfl hb
    fun _ hback => htotal ▸ forward_cols hvalid hstart' hback
  have hrunning := postprocessState_running (s := f) htotal rfl rfl hb
    (fun _ hback => htotal ▸ forward_cols hvalid hstart' hback) hidx (by omega)
  have hcols : (s.step blockSize next zero row).computed = f.computed ++ row.valid :=
    postprocessState_computed
  have hstate : (s.step blockSize next zero row).stateIdx = f.stateIdx := postprocessState_stateIdx
  refine ⟨⟨?_, ?_, fun hdvd => ?_⟩, fun hpassed hkept => ?_⟩
  · rw [hstate, hidx, nextIdx]
    have hcdiv := cdiv_pos (Nat.add_pos_right s.computed.length (hpos.trans_le hle)) hb
    omega
  · rw [hstate, hcols]
    exact hrunning
  · rw [hcols, htotal] at hdvd ⊢
    have haligned := Nat.div_mul_cancel hdvd
    refine (hsaved (by omega)).trans ?_
    rw [haligned, take_of_length_le htotal.le]
  · rw [hcols, htotal] at hpassed hkept ⊢
    refine hsaved ?_
    rcases hlen with ⟨-, hlen⟩ | ⟨hspec, -⟩
    · omega
    · have haligned := Nat.div_mul_cancel (hkept.resolve_left (by simp [hspec]))
      omega

theorem startState_of_nil (hrow : row.Valid s) (hnil : s.computed = []) :
    (s.preprocessState blockSize row.tokens.length).startState zero row =
      stateAfter next zero s.computed := by
  have hspec : row.isSpec = false := by
    have hkind := hrow.kind
    cases hspec : row.isSpec with
    | false => rfl
    | true =>
      have hdraft := (Row.isSpec_iff.mp hspec).1
      exact absurd hnil (hkind.resolve_left (by omega)).2.2
  simp [startState, hspec, preprocessState_computed, hnil, stateAfter]

/-- In every reachable state the state of the computed tokens is where the next step looks. -/
theorem Reachable.live (hb : 0 < blockSize) (h : Reachable blockSize next zero s)
    (hne : s.computed ≠ []) : Live blockSize next zero s := by
  induction h with
  | added s hhit =>
    have hlen : 0 < s.computed.length := length_pos_iff.mpr hne
    refine ⟨Int.ediv_nonneg (by omega) (by omega), by simpa [addRequest] using hhit hne, ?_⟩
    intro hdvd
    rw [← pred_ediv_of_dvd hb hdvd]
    exact hhit hne
  | @step s row h hrow hsafe ih =>
    refine (step_live hb hrow ?_).1
    by_cases hnil : s.computed = []
    · exact startState_of_nil hrow hnil
    · exact (ih hnil).startState_eq hsafe hnil
  | @readd s h hsafe ih =>
    have hlive := ih hne
    have hlen : 0 < s.computed.length := length_pos_iff.mpr hne
    refine ⟨Int.ediv_nonneg (by omega) (by omega), ?_, hlive.full⟩
    rcases hsafe with hdvd | ⟨haccepted, hidx⟩
    · simpa [addRequest, pred_ediv_of_dvd hb hdvd] using hlive.full hdvd
    · simpa [addRequest, haccepted, hidx] using hlive.running

/-- In every run whose rows and additions find the state in its place, each
forward behind computed tokens starts from the state after exactly these tokens,
and after the step a block boundary it reached has its state in its column. -/
theorem starts_after_computed (hb : 0 < blockSize) (h : Reachable blockSize next zero s)
    (hrow : row.Valid s) (hsafe : RowSafe blockSize s row) (hne : s.computed ≠ []) :
    (s.preprocessState blockSize row.tokens.length).startState zero row =
        stateAfter next zero s.computed ∧
      Saved blockSize next zero s (s.step blockSize next zero row) row := by
  have hstart := (h.live hb hne).startState_eq hsafe hne
  exact ⟨hstart, (step_live hb hrow hstart).2⟩

def remember (seen : List ℕ) (token : ℕ) : List ℕ := seen ++ [token]

/-- A prompt of two tokens, then a row of three of which two count. -/
def drafted : ModelState (List ℕ) ℕ :=
  (((⟨0, 1, fun _ => [], []⟩ : ModelState (List ℕ) ℕ).addRequest 8).step 8 remember []
    ⟨[10, 11], 0, 1⟩).step 8 remember [] ⟨[12, 13, 14], 2, 2⟩

theorem drafted_reachable : Reachable 8 remember [] drafted := by
  refine .step (.step (.added _ fun hne => absurd rfl hne) ?_ fun _ hne => absurd rfl hne) ?_ ?_
  · exact ⟨by decide, by decide, .inl rfl⟩
  · exact ⟨by decide, by decide, .inr (by decide)⟩
  · exact fun hspec => absurd hspec (by decide)

/-- With another draft, the row starts behind the accepted one. -/
theorem starts_after_accepted_draft :
    (drafted.preprocessState 8 2).startState [] ⟨[15, 16], 1, 1⟩ = [10, 11, 12, 13] := by
  have hvalid : Row.Valid drafted ⟨[15, 16], 1, 1⟩ := ⟨by decide, by decide, .inr (by decide)⟩
  exact (starts_after_computed (by decide) drafted_reachable hvalid
    (fun hspec => absurd hspec (by decide)) (by decide)).1

/-- Without a draft the row starts from the column of the first token of the
last row, and so does any row after the request was added again. -/
theorem starts_before_accepted_draft :
    Reachable 8 remember [] drafted ∧ drafted.computed = [10, 11, 12, 13] ∧
      Row.Valid drafted ⟨[15], 0, 1⟩ ∧
      (drafted.preprocessState 8 1).startState [] ⟨[15], 0, 1⟩ = [10, 11, 12] ∧
      Row.Valid (drafted.addRequest 8) ⟨[15, 16], 1, 1⟩ ∧
      ((drafted.addRequest 8).preprocessState 8 2).startState [] ⟨[15, 16], 1, 1⟩ = [10, 11, 12] :=
  ⟨drafted_reachable, by decide, ⟨by decide, by decide, .inl rfl⟩, by decide,
    ⟨by decide, by decide, .inr (by decide)⟩, by decide⟩

end Vllm.MambaHybrid
