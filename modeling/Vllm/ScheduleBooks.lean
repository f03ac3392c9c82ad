import Vllm.SchedulerQueues

/-!
The books that one call of `schedule` keeps: budgets, token counts, draft tokens
and encoder inputs of the requests it has scheduled so far. They change when a
request is scheduled and when a victim is taken back.
-/
namespace Vllm.Scheduler

open CacheManagers List OrderedDict

variable {n m : ℕ}

def Locals.scheduled (l : Locals) : List RequestId :=
  l.scheduledRunningReqs ++ (l.scheduledNewReqs ++ l.scheduledResumedReqs)

/-- `budget` is the token budget that the call started with. `fair` stands for
what the requests have to promise so that no budget is exceeded. -/
structure Books (fair : Prop) (cfg : SchedConfig m) (budget : ℤ) (running : List RequestId)
    (l : Locals) : Prop where
  tokens : l.tokenBudget + totalNumScheduledTokens l = budget
  inputs : l.inputBudget + (l.numScheduledTokens.sum fun _ k => k + cfg.draftSlots) =
    cfg.maxNumBatchedTokens
  tokenBudget : fair → 0 ≤ l.tokenBudget
  inputBudget : fair → 0 ≤ l.inputBudget
  counts : ∀ r k, (r, k) ∈ l.numScheduledTokens.entries → 0 < k
  keys : l.numScheduledTokens.keys.Perm l.scheduled
  running : ∀ r ∈ l.numScheduledTokens.keys, r ∈ running
  drafts : ∀ r ids, (r, ids) ∈ l.scheduledSpecDecodeTokens.entries →
    ∃ k, (r, k) ∈ l.numScheduledTokens.entries ∧
      (fair → 0 < cfg.numSampledTokensPerStep → (ids.length : ℤ) + 1 ≤ k)
  encoder : ∀ r ∈ l.scheduledEncoderInputs.keys, r ∈ l.numScheduledTokens.keys

namespace Books

variable {fair : Prop} {cfg : SchedConfig m} {budget : ℤ} {running running' : List RequestId}
  {l l' : Locals} {r : RequestId} {k : ℤ}

/-- The books at the beginning of a call. -/
theorem start (s : SchedulerState n m) (running : List RequestId) :
    Books fair cfg (startLocals cfg s).tokenBudget running (startLocals cfg s) where
  tokens := by simp [totalNumScheduledTokens, startLocals]
  inputs := by simp [startLocals]
  tokenBudget _ := by
    simp only [startLocals]
    split <;> omega
  inputBudget _ := Int.natCast_nonneg _
  counts r k hk := absurd hk not_mem_nil
  keys := List.Perm.refl _
  running r hr := absurd hr not_mem_nil
  drafts r ids h := absurd h not_mem_nil
  encoder r hr := absurd hr not_mem_nil

variable (h : Books fair cfg budget running l)
include h

theorem mono (hrunning : ∀ r ∈ l.numScheduledTokens.keys, r ∈ running') :
    Books fair cfg budget running' l :=
  { h with running := hrunning }

theorem scheduled_nodup : l.scheduled.Nodup :=
  h.keys.nodup_iff.mp l.numScheduledTokens.nodup

/-- A scheduled request takes its tokens out of the budgets. -/
theorem record (hr : r ∉ l.numScheduledTokens.keys) (hpos : 0 < k)
    (htokens : fair → k ≤ l.tokenBudget) (hinputs : fair → k + cfg.draftSlots ≤ l.inputBudget)
    (hcounts : l'.numScheduledTokens = l.numScheduledTokens.set r k)
    (htokenBudget : l'.tokenBudget = l.tokenBudget - k)
    (hinputBudget : l'.inputBudget = l.inputBudget - (k + cfg.draftSlots))
    (hkeys : l'.scheduled.Perm (r :: l.scheduled))
    (hdrafts : l'.scheduledSpecDecodeTokens = l.scheduledSpecDecodeTokens ∨
      ∃ ids, l'.scheduledSpecDecodeTokens = l.scheduledSpecDecodeTokens.set r ids ∧
        (fair → 0 < cfg.numSampledTokensPerStep → (ids.length : ℤ) + 1 ≤ k))
    (hencoder : ∀ x ∈ l'.scheduledEncoderInputs.keys, x = r ∨ x ∈ l.scheduledEncoderInputs.keys)
    (hrunning : ∀ x ∈ running, x ∈ running') (hself : r ∈ running') :
    Books fair cfg budget running' l' := by
  have hentry {x : RequestId} {j : ℤ} (hx : (x, j) ∈ l.numScheduledTokens.entries) :
      (x, j) ∈ l'.numScheduledTokens.entries := by
    rw [hcounts, mem_entries_set]
    refine .inr ⟨hx, ?_⟩
    rintro rfl
    exact hr (keys_of_mem hx)
  have hnew : (r, k) ∈ l'.numScheduledTokens.entries := by
    rw [hcounts, mem_entries_set]
    exact .inl rfl
  constructor
  · have hold := h.tokens
    unfold totalNumScheduledTokens at hold ⊢
    rw [hcounts, sum_set_of_notMem _ hr, htokenBudget]
    omega
  · have hold := h.inputs
    rw [hcounts, sum_set_of_notMem _ hr, hinputBudget]
    omega
  · intro hfair
    have hle := htokens hfair
    rw [htokenBudget]
    omega
  · intro hfair
    have hle := hinputs hfair
    rw [hinputBudget]
    omega
  · intro x j hx
    rw [hcounts, mem_entries_set] at hx
    obtain hx | ⟨hx, -⟩ := hx
    · cases hx
      exact hpos
    · exact h.counts x j hx
  · rw [hcounts, keys_set_of_notMem hr]
    apply (perm_append_singleton r _).trans
    exact (h.keys.cons r).trans hkeys.symm
  · intro x hx
    rw [hcounts, mem_keys_set] at hx
    obtain rfl | hx := hx
    · exact hself
    · exact hrunning x (h.running x hx)
  · intro x ids hx
    obtain hsame | ⟨new, hset, hlen⟩ := hdrafts
    · rw [hsame] at hx
      obtain ⟨j, hj, hle⟩ := h.drafts x ids hx
      exact ⟨j, hentry hj, hle⟩
    · rw [hset, mem_entries_set] at hx
      obtain hx | ⟨hx, -⟩ := hx
      · cases hx
        exact ⟨k, hnew, hlen⟩
      · obtain ⟨j, hj, hle⟩ := h.drafts x ids hx
        exact ⟨j, hentry hj, hle⟩
  · intro x hx
    rw [hcounts, mem_keys_set]
    obtain rfl | hx := hencoder x hx
    · exact .inl rfl
    · exact .inr (h.encoder x hx)

/-- A victim puts its tokens back. -/
theorem unschedule (hr : l.numScheduledTokens.get? r = some k)
    (hcounts : l'.numScheduledTokens = l.numScheduledTokens.erase r)
    (htokenBudget : l'.tokenBudget = l.tokenBudget + k)
    (hinputBudget : l'.inputBudget = l.inputBudget + (k + cfg.draftSlots))
    (hkeys : (r :: l'.scheduled).Perm l.scheduled)
    (hdrafts : l'.scheduledSpecDecodeTokens = l.scheduledSpecDecodeTokens.erase r)
    (hencoder : l'.scheduledEncoderInputs = l.scheduledEncoderInputs.erase r)
    (hrunning : ∀ x ∈ running, x ≠ r → x ∈ running') : Books fair cfg budget running' l' := by
  have hmem := get?_eq_some_iff.mp hr
  have hpos := h.counts r k hmem
  constructor
  · have hold := h.tokens
    unfold totalNumScheduledTokens at hold ⊢
    rw [hcounts, sum_erase_of_mem _ hmem, htokenBudget]
    omega
  · have hold := h.inputs
    rw [hcounts, sum_erase_of_mem _ hmem, hinputBudget]
    omega
  · intro hfair
    have hold := h.tokenBudget hfair
    rw [htokenBudget]
    omega
  · intro hfair
    have hold := h.inputBudget hfair
    rw [hinputBudget]
    omega
  · intro x j hx
    rw [hcounts, mem_entries_erase] at hx
    exact h.counts x j hx.1
  · have hsplit := keys_erase_perm (keys_of_mem hmem)
    rw [hcounts]
    exact ((hsplit.trans h.keys).trans hkeys.symm).cons_inv
  · intro x hx
    rw [hcounts, mem_keys_erase] at hx
    exact hrunning x (h.running x hx.1) hx.2
  · intro x ids hx
    rw [hdrafts, mem_entries_erase] at hx
    obtain ⟨j, hj, hle⟩ := h.drafts x ids hx.1
    rw [hcounts]
    exact ⟨j, mem_entries_erase.mpr ⟨hj, hx.2⟩, hle⟩
  · intro x hx
    rw [hencoder, mem_keys_erase] at hx
    rw [hcounts, mem_keys_erase]
    exact ⟨h.encoder x hx.1, hx.2⟩

/-- Drafts are recorded for a request that is scheduled with one token more. -/
theorem setDrafts (hr : (r, k) ∈ l.numScheduledTokens.entries) {ids : List ℤ}
    (hle : (ids.length : ℤ) + 1 ≤ k) :
    Books fair cfg budget running { l with
      scheduledSpecDecodeTokens := l.scheduledSpecDecodeTokens.set r ids } := by
  refine { h with drafts := ?_ }
  intro x other hx
  obtain hx | hx := mem_entries_set.mp hx
  · cases hx
    exact ⟨k, hr, fun _ _ => hle⟩
  · exact h.drafts x other hx.1

/-- Encoder inputs are recorded for scheduled requests only. -/
theorem setEncoder (hr : r ∈ l.numScheduledTokens.keys) {inputs : OrderedDict RequestId (List ℕ)}
    {encoderComputeBudget : ℤ} (hinputs : inputs = l.scheduledEncoderInputs ∨
      ∃ ids, inputs = l.scheduledEncoderInputs.set r ids) :
    Books fair cfg budget running
      { l with scheduledEncoderInputs := inputs, encoderComputeBudget } := by
  refine { h with encoder := ?_ }
  intro x hx
  obtain rfl | ⟨ids, rfl⟩ := hinputs
  · exact h.encoder x hx
  · obtain rfl | hx := mem_keys_set.mp hx
    · exact hr
    · exact h.encoder x hx

end Books

end Vllm.Scheduler
