import Vllm.KVCacheManager

/-!
The clipping of prefill chunks in "align" mode. The scheduler asks for as many
tokens as its budgets allow and then clips the chunk so that it ends where a
Mamba state can be cached. A chunk may be clipped to nothing; the caller then
skips the request and tries again in the next step. The two limits on a chunk,
the one the caller applies and the one the split believes in, are translated
from the configuration.
-/
namespace Vllm.AlignedSplit

open Outcome CacheManagers KVCacheManager List

inductive SpeculativeMethod where
  | ngram
  | medusa
  | mlpSpeculator
  | draftModel
  | suffix
  | customClass
  | eagle
  | eagle3
  | extractHiddenStates
  | mtp
  | dflash
  | ngramGpu
  | dspark
deriving DecidableEq, Repr

structure SpeculativeConfig where
  method : SpeculativeMethod
  numSpeculativeTokens : ℕ+
  parallelDrafting : Bool
deriving Repr

namespace SpeculativeConfig

variable (spec : SpeculativeConfig)

def useDflash : Bool := spec.method = .dflash

def usesDraftModel : Bool := spec.method = .draftModel

/-- The input slots that a request needs for drafting beside its own tokens. -/
def maxNumNewSlotsForDrafting : ℕ :=
  let numDraftTokens : ℕ := spec.numSpeculativeTokens
  if spec.useDflash then
    numDraftTokens
  else if spec.parallelDrafting then
    if spec.usesDraftModel then numDraftTokens else numDraftTokens - 1
  else if spec.usesDraftModel then
    1
  else
    0

end SpeculativeConfig

structure SchedulerConfig where
  maxNumBatchedTokens : ℕ+
  maxNumScheduledTokens : Option ℕ
  longPrefillTokenThreshold : ℕ
deriving Repr

def draftSlots (speculative : Option SpeculativeConfig) : ℕ :=
  match speculative with
  | none => 0
  | some spec => spec.maxNumNewSlotsForDrafting

def setMaxNumScheduledTokens (speculative : Option SpeculativeConfig) (c : SchedulerConfig) :
    Except Failure SchedulerConfig :=
  match speculative with
  | none => .ok c
  | some spec =>
    let scheduledTokenDelta := spec.maxNumNewSlotsForDrafting
    let maxNumBatchedTokens : ℕ := c.maxNumBatchedTokens
    let maxNumScheduledTokens := c.maxNumScheduledTokens.getD maxNumBatchedTokens
    if maxNumScheduledTokens = 0 then
      .error (.valueError ("max_num_scheduled_tokens is set to " ++
        toString maxNumScheduledTokens ++ " based on" ++
        " the speculative decoding settings, which does not allow" ++
        " any tokens to be scheduled. Increase max_num_batched_tokens" ++
        " to accommodate the additional draft token slots, or decrease" ++
        " num_speculative_tokens."))
    else if maxNumBatchedTokens ≤ scheduledTokenDelta then
      .error (.valueError ("VllmConfig does not have enough slots to schedule a token and" ++
        " support the speculative decoding settings." ++
        " Got max_num_batched_tokens=" ++ toString maxNumBatchedTokens ++
        " and scheduled_token_delta=" ++ toString scheduledTokenDelta ++ "."))
    else
      .ok { c with maxNumScheduledTokens := some maxNumScheduledTokens }

def SchedulerConfig.tokenBudget (c : SchedulerConfig) : ℕ :=
  c.maxNumScheduledTokens.getD c.maxNumBatchedTokens

/-- The tokens `schedule` asks for when `remaining` tokens of a request are left
and no other request has used the budgets. -/
def numNewTokens (c : SchedulerConfig) (draftSlots remaining : ℕ) : ℕ :=
  let numNewTokens :=
    if 0 < c.longPrefillTokenThreshold ∧ c.longPrefillTokenThreshold < remaining then
      c.longPrefillTokenThreshold
    else
      remaining
  min numNewTokens (min c.tokenBudget (c.maxNumBatchedTokens - draftSlots))

structure SplitConfig (m : ℕ) where
  cache : Config m
  scheduler : SchedulerConfig
  blockSize : ℕ+
  hashBlockSize : ℕ+
  mambaHasPrefillCheckpointBlocks : Bool
  mambaPrefillCheckpointAlignment : Option ℕ
  mambaPartialCacheHit : Bool
  mambaFineGrainedPrefixCache : Bool

variable {m : ℕ}

/-- Resumed requests replay their output tokens as part of the prefill. -/
def prefillEnd (r : CacheRequest) : ℕ := max r.numPromptTokens (r.numTokens - 1)

namespace SplitConfig

variable (cfg : SplitConfig m) (r : CacheRequest)

def useInternalCheckpoint (start stop : ℕ) : Bool :=
  cfg.mambaHasPrefillCheckpointBlocks && decide (prefillEnd r ≤ stop) &&
    MambaManager.isMambaPrefillCheckpointValid start stop
      (MambaManager.getMambaPrefillCheckpointPosition (prefillEnd r) cfg.hashBlockSize
        cfg.cache.useEagleBlockDrop)
      cfg.hashBlockSize cfg.blockSize cfg.mambaPrefillCheckpointAlignment

def lastCachePosition (useInternalCheckpoint : Bool) : ℕ :=
  if useInternalCheckpoint then
    0
  else
    let position := r.numTokens - r.numTokens % cfg.blockSize
    if cfg.cache.useEagleBlockDrop then position - cfg.blockSize else position

/-- The limit below which the split takes a full block to fit one step. -/
def maxPrefillTokens : ℕ :=
  if 0 < cfg.scheduler.longPrefillTokenThreshold then
    min cfg.scheduler.tokenBudget cfg.scheduler.longPrefillTokenThreshold
  else
    cfg.scheduler.tokenBudget

def alignEnd (start stop : ℕ) : ℕ :=
  -- A chunk that does not end the prefill ends on a block boundary, unless a block is too wide
  -- for one step.
  let alignedEnd := stop / cfg.blockSize * cfg.blockSize
  if stop < prefillEnd r ∧ (start < alignedEnd ∨ cfg.blockSize ≤ cfg.maxPrefillTokens) then
    alignedEnd
  else
    stop

/-- The last hash boundary of the prompt that a later hit can land on. -/
def tailBoundary (useInternalCheckpoint : Bool) : ℕ :=
  let boundary :=
    if cfg.mambaPartialCacheHit ∧ useInternalCheckpoint = false then
      r.numPromptTokens / cfg.hashBlockSize * cfg.hashBlockSize
    else
      0
  if cfg.cache.useEagleBlockDrop then boundary - cfg.hashBlockSize else boundary

/-- The junction with a shared prefix, floored to a block counted from the start
of the chunk where its state is not cached separately. It is read for a
junction inside the chunk only, so the subtraction does not truncate. -/
def junctionStop (start : ℕ) : ℕ :=
  let junction := r.sharedPrefixBoundary
  if cfg.mambaFineGrainedPrefixCache ∧ junction ≤ r.numPromptTokens then
    junction
  else
    start + (junction - start) / cfg.blockSize * cfg.blockSize

def replayBoundary : ℕ :=
  if cfg.cache.draftReplayReserve ≠ 0 then Coordinator.getReplayBoundary cfg.cache r.numPromptTokens
  else 0

def stops (useInternalCheckpoint : Bool) (start stop : ℕ) : List ℕ :=
  let lastCachePosition := cfg.lastCachePosition r useInternalCheckpoint
  let tailBoundary := cfg.tailBoundary r useInternalCheckpoint
  [ if start % cfg.blockSize ≠ 0 then (start / cfg.blockSize + 1) * cfg.blockSize else 0,
    lastCachePosition,
    if lastCachePosition < tailBoundary ∧ tailBoundary < r.numPromptTokens then tailBoundary else 0,
    if start < r.sharedPrefixBoundary ∧ r.sharedPrefixBoundary < stop then
      cfg.junctionStop r start
    else
      0,
    if start < cfg.replayBoundary r ∧ cfg.replayBoundary r < stop then cfg.replayBoundary r else 0 ]

end SplitConfig

def earliestStop (stops : List ℕ) (start stop : ℕ) : ℕ :=
  ((stops.filter fun s => start < s ∧ s < stop).min?).getD stop

def mambaBlockAlignedSplit (cfg : SplitConfig m) (r : CacheRequest)
    (numNewTokens numNewLocalComputedTokens numExternalComputedTokens : ℕ) : ℕ :=
  let start := r.numComputedTokens + numNewLocalComputedTokens + numExternalComputedTokens
  if prefillEnd r ≤ start then
    numNewTokens
  else
    let useInternalCheckpoint := cfg.useInternalCheckpoint r start (start + numNewTokens)
    let stop := cfg.alignEnd r start (start + numNewTokens)
    earliestStop (cfg.stops r useInternalCheckpoint start stop) start stop - start

/-! ### Progress -/

theorem lt_earliestStop_iff (stops : List ℕ) (start stop : ℕ) :
    start < earliestStop stops start stop ↔ start < stop := by
  unfold earliestStop
  cases hmin : (stops.filter fun s => start < s ∧ s < stop).min? with
  | none => simp
  | some s =>
    have hmem := mem_filter.mp (min?_mem hmin)
    have hbetween : start < s ∧ s < stop := by simpa using hmem.2
    simp only [Option.getD_some]
    omega

theorem lt_block_floor_iff {b : ℕ} (hpos : 0 < b) (start chunk : ℕ) :
    start < (start + chunk) / b * b ↔ b ≤ start % b + chunk := by
  have hsum : (start + chunk) / b = start / b + (start % b + chunk) / b := by
    conv_lhs => rw [← Nat.div_add_mod start b, Nat.add_assoc, Nat.mul_add_div hpos]
  have hdecomp : start / b * b + start % b = start := Nat.div_add_mod' start b
  have hmod : start % b < b := Nat.mod_lt _ hpos
  rw [hsum, Nat.add_mul]
  constructor
  · intro h
    by_contra hlt
    have hzero : (start % b + chunk) / b = 0 := Nat.div_eq_of_lt (Nat.lt_of_not_le hlt)
    rw [hzero] at h
    omega
  · intro h
    have hone : 1 ≤ (start % b + chunk) / b := (Nat.one_le_div_iff hpos).mpr h
    have hblock : b ≤ (start % b + chunk) / b * b := by
      simpa only [Nat.one_mul] using Nat.mul_le_mul_right b hone
    omega

variable (cfg : SplitConfig m) (r : CacheRequest)

/-- A chunk is clipped to nothing exactly if it stays below the end of the
prefill, a block is taken to fit one step and the chunk reaches no boundary. -/
theorem lt_alignEnd_iff {start chunk : ℕ} (hchunk : 0 < chunk) :
    start < cfg.alignEnd r start (start + chunk) ↔
      prefillEnd r ≤ start + chunk ∨ cfg.maxPrefillTokens < cfg.blockSize ∨
        cfg.blockSize ≤ start % cfg.blockSize + chunk := by
  have hfloor := lt_block_floor_iff cfg.blockSize.pos start chunk
  simp only [SplitConfig.alignEnd]
  split_ifs with hclip
  · rw [hfloor] at hclip ⊢
    omega
  · rw [hfloor] at hclip
    omega

/-- A chunk gets a token exactly when it ends the prefill, reaches the next block, or no block fits
one step. -/
theorem lt_mambaBlockAlignedSplit_iff {chunk newLocal external start : ℕ} (hchunk : 0 < chunk)
    (hstart : start = r.numComputedTokens + newLocal + external) (hprefill : start < prefillEnd r) :
    0 < mambaBlockAlignedSplit cfg r chunk newLocal external ↔
      prefillEnd r ≤ start + chunk ∨ cfg.maxPrefillTokens < cfg.blockSize ∨
        cfg.blockSize ≤ start % cfg.blockSize + chunk := by
  unfold mambaBlockAlignedSplit
  simp only [← hstart]
  rw [if_neg (Nat.not_le.mpr hprefill), Nat.sub_pos_iff_lt, lt_earliestStop_iff,
    lt_alignEnd_iff cfg r hchunk]

def stepLimit (c : SchedulerConfig) (draftSlots : ℕ) : ℕ :=
  if 0 < c.longPrefillTokenThreshold then
    min c.longPrefillTokenThreshold (c.maxNumBatchedTokens - draftSlots)
  else
    c.maxNumBatchedTokens - draftSlots

/-- Without a limit of its own, an accepted configuration schedules up to the
batched tokens and leaves room for the draft slots. -/
theorem setMaxNumScheduledTokens_default {speculative : Option SpeculativeConfig}
    {c c' : SchedulerConfig} (hdefault : c.maxNumScheduledTokens = none)
    (hok : setMaxNumScheduledTokens speculative c = .ok c') :
    c'.maxNumBatchedTokens = c.maxNumBatchedTokens ∧
      c'.longPrefillTokenThreshold = c.longPrefillTokenThreshold ∧
      c'.tokenBudget = c.maxNumBatchedTokens ∧ draftSlots speculative < c.maxNumBatchedTokens := by
  cases speculative with
  | none =>
    obtain rfl : c = c' := by simpa [setMaxNumScheduledTokens] using hok
    exact ⟨rfl, rfl, by simp [SchedulerConfig.tokenBudget, hdefault], c.maxNumBatchedTokens.pos⟩
  | some spec =>
    simp only [setMaxNumScheduledTokens, hdefault, Option.getD_none] at hok
    split_ifs at hok with hzero hslots
    obtain rfl := Except.ok.inj hok
    exact ⟨rfl, rfl, rfl, Nat.lt_of_not_le hslots⟩

theorem numNewTokens_eq {c : SchedulerConfig} {slots remaining : ℕ}
    (hbudget : c.tokenBudget = c.maxNumBatchedTokens) :
    numNewTokens c slots remaining = min remaining (stepLimit c slots) := by
  simp only [numNewTokens, stepLimit, hbudget]
  split_ifs <;> omega

theorem maxPrefillTokens_eq {cfg : SplitConfig m}
    (hbudget : cfg.scheduler.tokenBudget = cfg.scheduler.maxNumBatchedTokens) :
    cfg.maxPrefillTokens = stepLimit cfg.scheduler 0 := by
  unfold SplitConfig.maxPrefillTokens stepLimit
  rw [hbudget, Nat.sub_zero]
  split_ifs
  · exact Nat.min_comm _ _
  · rfl

/-- A sole request with tokens left to prefill is given a chunk exactly if the
step limit of the caller ends the prefill or reaches a block boundary, or a
block is too wide for one step even without draft slots. -/
theorem full_budget_chunk_pos_iff (cfg : SplitConfig m)
    (speculative : Option SpeculativeConfig) (c : SchedulerConfig)
    (hdefault : c.maxNumScheduledTokens = none)
    (hok : setMaxNumScheduledTokens speculative c = .ok cfg.scheduler)
    (r : CacheRequest) (hprompt : r.numPromptTokens ≤ r.numTokens)
    (newLocal external numDraftTokens : ℕ)
    (hprefill : r.numComputedTokens + newLocal + external < prefillEnd r) :
    let start := r.numComputedTokens + newLocal + external
    let limit := stepLimit cfg.scheduler (draftSlots speculative)
    0 < mambaBlockAlignedSplit cfg r
        (numNewTokens cfg.scheduler (draftSlots speculative)
          (r.numTokens + numDraftTokens - start)) newLocal external ↔
      prefillEnd r ≤ start + limit ∨ stepLimit cfg.scheduler 0 < cfg.blockSize ∨
        cfg.blockSize ≤ start % cfg.blockSize + limit := by
  intro start limit
  obtain ⟨hbatched, -, hbudget, hslots⟩ := setMaxNumScheduledTokens_default hdefault hok
  rw [← hbatched] at hbudget hslots
  have hlimit : 0 < limit := by
    change 0 < stepLimit cfg.scheduler (draftSlots speculative)
    unfold stepLimit
    split_ifs <;> omega
  have hend : prefillEnd r ≤ r.numTokens := by
    unfold prefillEnd
    omega
  have hremaining : prefillEnd r ≤ start + (r.numTokens + numDraftTokens - start) := by omega
  rw [numNewTokens_eq hbudget, lt_mambaBlockAlignedSplit_iff cfg r (by omega) rfl hprefill,
    maxPrefillTokens_eq hbudget]
  rcases le_total limit (r.numTokens + numDraftTokens - start) with hle | hge
  · rw [Nat.min_eq_right hle]
  · rw [Nat.min_eq_left hge]
    constructor
    · intro _
      exact .inl (by omega)
    · intro _
      exact .inl hremaining

def twentyTokens : CacheRequest :=
  { numPromptTokens := 20, promptTokenIds := none, outputTokenIds := []
    allTokenIds := List.replicate 20 0, promptEmbeds := none, mmFeatures := [], loraRequest := none
    cacheSalt := none, blockHashes := [], requestId := 0, status := .waiting
    numComputedTokens := 0, numInFlightTokens := 0, sharedPrefixBoundary := 0 }

/-- One Mamba group with blocks of `blockSize` tokens, at most 8 batched tokens
and the default limit on scheduled tokens. -/
def eightTokens (blockSize : ℕ+) : SplitConfig 1 :=
  { cache := .single (.mamba ⟨0, 0, none⟩) blockSize true 100
    scheduler := ⟨8, some 8, 0⟩, blockSize := blockSize, hashBlockSize := blockSize
    mambaHasPrefillCheckpointBlocks := false, mambaPrefillCheckpointAlignment := none
    mambaPartialCacheHit := false, mambaFineGrainedPrefixCache := false }

/-- With blocks of 4 tokens the first chunk of the prompt has 4 tokens. -/
theorem full_budget_chunk_pos_four : 0 < mambaBlockAlignedSplit (eightTokens 4) twentyTokens
      (numNewTokens (eightTokens 4).scheduler (draftSlots (some ⟨.draftModel, 1, false⟩)) 20) 0 0 :=
  (full_budget_chunk_pos_iff (eightTokens 4) (some ⟨.draftModel, 1, false⟩) ⟨8, none, 0⟩ rfl rfl
    twentyTokens (by decide) 0 0 0 (by decide)).mpr (by decide)

/-- With a draft model and blocks of 8 tokens the caller asks for 7 tokens, the
split takes a block to fit the 8 batched tokens, and the prompt never starts. -/
theorem full_budget_chunk_starves :
    setMaxNumScheduledTokens (some ⟨.draftModel, 1, false⟩) ⟨8, none, 0⟩ =
        .ok (eightTokens 8).scheduler ∧
      numNewTokens (eightTokens 8).scheduler (draftSlots (some ⟨.draftModel, 1, false⟩)) 20 = 7 ∧
      mambaBlockAlignedSplit (eightTokens 8) twentyTokens 7 0 0 = 0 := by
  refine ⟨rfl, by decide, by decide⟩

/-! ### Mandatory stops -/

variable {cfg : SplitConfig m} {r : CacheRequest} {start stop b : ℕ}

/-- The chunks of a prefill, each with its first position and its end. A chunk may be
cut below the split; no step leaves a checkpoint inside its chunk. -/
inductive Prefills (cfg : SplitConfig m) (r : CacheRequest) : ℕ → List (ℕ × ℕ) → Prop
  | done {start : ℕ} : prefillEnd r ≤ start → Prefills cfg r start []
  | chunk {start computed newLocal external budget k : ℕ} {chunks : List (ℕ × ℕ)} :
      start < prefillEnd r → computed + newLocal + external = start →
      cfg.useInternalCheckpoint r start (start + budget) = false → 0 < k →
      k ≤ mambaBlockAlignedSplit cfg { r with numComputedTokens := computed } budget newLocal
        external →
      Prefills cfg r (start + k) chunks → Prefills cfg r start ((start, start + k) :: chunks)

/-- Where a chunk ends at the latest, without a checkpoint inside. -/
def latestEnd (cfg : SplitConfig m) (r : CacheRequest) (start budget : ℕ) : ℕ :=
  let stop := cfg.alignEnd r start (start + budget)
  earliestStop (cfg.stops r false start stop) start stop

/-- Without a checkpoint inside the chunk, the split ends it at `latestEnd`. -/
theorem split_eq_latestEnd {computed newLocal external budget : ℕ} (hbelow : start < prefillEnd r)
    (hstart : computed + newLocal + external = start)
    (hcheckpoint : cfg.useInternalCheckpoint r start (start + budget) = false) :
    mambaBlockAlignedSplit cfg { r with numComputedTokens := computed } budget newLocal external =
      latestEnd cfg r start budget - start := by
  subst hstart
  refine (if_neg (Nat.not_le.mpr hbelow)).trans ?_
  rw [latestEnd, ← hcheckpoint]
  rfl

theorem earliestStop_le_end (stops : List ℕ) (start stop : ℕ) :
    earliestStop stops start stop ≤ stop := by
  unfold earliestStop
  cases hmin : (stops.filter fun s => start < s ∧ s < stop).min? with
  | none => exact le_rfl
  | some s =>
    have hmem := mem_filter.mp (min?_mem hmin)
    have hbetween : start < s ∧ s < stop := by simpa using hmem.2
    exact hbetween.2.le

/-- A chunk does not run past a stop behind its start. -/
theorem earliestStop_le {stops : List ℕ} (hb : b ∈ stops) (hstart : start < b) :
    earliestStop stops start stop ≤ b := by
  by_cases hlt : b < stop
  · have hmem : b ∈ stops.filter fun s => start < s ∧ s < stop :=
      mem_filter.mpr ⟨hb, by simp [hstart, hlt]⟩
    obtain ⟨s, hs⟩ := Option.isSome_iff_exists.mp (isSome_min?_of_mem hmem)
    rw [earliestStop, hs]
    exact (min?_eq_some_iff.mp hs).2 b hmem
  · exact (earliestStop_le_end ..).trans (Nat.le_of_not_lt hlt)

theorem lt_floor {x y : ℕ} (hpos : 0 < b) (h : x / b * b < y / b * b) : x < y / b * b := by
  have hle := Nat.mul_le_mul_right b (Nat.succ_le_of_lt (Nat.lt_of_mul_lt_mul_right h))
  have hlt := Nat.lt_div_mul_add hpos (a := x)
  rw [Nat.succ_mul] at hle
  omega

/-- A chunk that ends at or before a junction ends at or before its block. -/
theorem alignEnd_le_floor {junction : ℕ} (hend : junction < prefillEnd r)
    (hstart : start < junction / cfg.blockSize * cfg.blockSize)
    (hstop : cfg.alignEnd r start stop ≤ junction) :
    cfg.alignEnd r start stop ≤ junction / cfg.blockSize * cfg.blockSize := by
  have hpos := cfg.blockSize.pos
  unfold SplitConfig.alignEnd at hstop ⊢
  dsimp only at hstop ⊢
  split_ifs at hstop ⊢ with hclip
  · exact Nat.mul_le_mul_right _ ((Nat.le_div_iff_mul_le hpos).mpr hstop)
  · have hfloor : stop / cfg.blockSize * cfg.blockSize ≤ start := by
      by_contra hlt
      exact hclip ⟨by omega, .inl (Nat.lt_of_not_le hlt)⟩
    exact (lt_floor hpos (hfloor.trans_lt hstart)).le

/-- A chunk that starts inside a block does not leave it. -/
theorem latestEnd_le_block (hmod : start % cfg.blockSize ≠ 0) (budget : ℕ) :
    latestEnd cfg r start budget ≤ (start / cfg.blockSize + 1) * cfg.blockSize := by
  refine earliestStop_le (by simp [SplitConfig.stops, hmod]) ?_
  rw [Nat.succ_mul]
  exact Nat.lt_div_mul_add cfg.blockSize.pos

theorem latestEnd_le_junction (hfine : cfg.mambaFineGrainedPrefixCache = false)
    (hend : r.sharedPrefixBoundary < prefillEnd r)
    (hstart : start < r.sharedPrefixBoundary / cfg.blockSize * cfg.blockSize) (budget : ℕ) :
    latestEnd cfg r start budget ≤ r.sharedPrefixBoundary / cfg.blockSize * cfg.blockSize := by
  have hlow := Nat.div_mul_le_self r.sharedPrefixBoundary cfg.blockSize
  by_cases hmod : start % cfg.blockSize = 0
  · by_cases hinside : r.sharedPrefixBoundary < cfg.alignEnd r start (start + budget)
    · -- counted from a block boundary, the junction is floored to its block
      have hjunction : cfg.junctionStop r start =
          r.sharedPrefixBoundary / cfg.blockSize * cfg.blockSize := by
        obtain ⟨q, rfl⟩ := Nat.dvd_of_mod_eq_zero hmod
        simp only [SplitConfig.junctionStop, hfine, Bool.false_eq_true, false_and, if_false]
        rw [Nat.sub_mul_div, Nat.sub_mul, Nat.mul_comm q]
        omega
      refine earliestStop_le ?_ hstart
      simp [SplitConfig.stops, hjunction, hinside, show start < r.sharedPrefixBoundary by omega]
    · exact (earliestStop_le_end ..).trans
        (alignEnd_le_floor hend hstart (Nat.le_of_not_lt hinside))
  · have hnext : start / cfg.blockSize * cfg.blockSize <
        r.sharedPrefixBoundary / cfg.blockSize * cfg.blockSize :=
      (Nat.div_mul_le_self ..).trans_lt hstart
    exact (latestEnd_le_block hmod budget).trans
      (Nat.mul_le_mul_right _ (Nat.lt_of_mul_lt_mul_right hnext))

/-- No chunk crosses the replay boundary. -/
theorem latestEnd_le_replay (hstart : start < cfg.replayBoundary r) (budget : ℕ) :
    latestEnd cfg r start budget ≤ cfg.replayBoundary r := by
  by_cases hinside : cfg.replayBoundary r < cfg.alignEnd r start (start + budget)
  · exact earliestStop_le (by simp [SplitConfig.stops, hstart, hinside]) hstart
  · exact (earliestStop_le_end ..).trans (Nat.le_of_not_lt hinside)

/-- A position that no chunk may run past is the end of a chunk. -/
theorem Prefills.mem_ends {chunks : List (ℕ × ℕ)} (hrun : Prefills cfg r start chunks)
    (hpass : ∀ start budget, start < b → latestEnd cfg r start budget ≤ b) (hstart : start < b)
    (hend : b < prefillEnd r) : b ∈ chunks.map Prod.snd := by
  induction hrun with
  | done hdone => omega
  | @chunk start _ _ _ budget k _ hbelow hsum hcheckpoint _ hle _ ih =>
    rw [split_eq_latestEnd hbelow hsum hcheckpoint] at hle
    have hlimit := hpass start budget hstart
    rcases (show start + k ≤ b by omega).lt_or_eq with hlt | rfl
    · exact mem_cons_of_mem _ (ih hlt)
    · exact mem_cons_self

theorem Prefills.within_block {chunks : List (ℕ × ℕ)} (hrun : Prefills cfg r start chunks) :
    ∀ c ∈ chunks, c.1 % cfg.blockSize ≠ 0 → c.2 ≤ (c.1 / cfg.blockSize + 1) * cfg.blockSize := by
  induction hrun with
  | done hdone => simp
  | @chunk start _ _ _ budget k _ hbelow hsum hcheckpoint _ hle _ ih =>
    rw [split_eq_latestEnd hbelow hsum hcheckpoint] at hle
    intro c hc hmod
    rcases mem_cons.mp hc with rfl | hc
    · have hlimit := latestEnd_le_block (r := r) hmod budget
      dsimp only at hlimit ⊢
      omega
    · exact ih c hc hmod

/-- In every prefill with a draft replay reserve the replay boundary, the last cacheable
block boundary and the block of the shared-prefix junction are chunk ends, and no chunk
leaves the block it starts inside. Junctions lie below the reserve, as cache hits do, and
are only kept exactly with EAGLE groups, which have no reserve. -/
theorem boundaries_end_chunks {chunks : List (ℕ × ℕ)} (hrun : Prefills cfg r start chunks)
    (hreserve : 0 < cfg.cache.draftReplayReserve)
    (hmethod : 0 < cfg.cache.draftReplayReserve → cfg.cache.useEagleBlockDrop = false)
    (hfine : cfg.mambaFineGrainedPrefixCache = true → cfg.cache.useEagleBlockDrop = true)
    (hjunction : r.sharedPrefixBoundary ≤ r.numTokens - 1 - cfg.cache.draftReplayReserve) :
    (∀ b ∈ [Coordinator.getReplayBoundary cfg.cache r.numPromptTokens,
        cfg.lastCachePosition r false, r.sharedPrefixBoundary / cfg.blockSize * cfg.blockSize],
      start < b → b < prefillEnd r → b ∈ chunks.map Prod.snd) ∧
    ∀ c ∈ chunks, c.1 % cfg.blockSize ≠ 0 → c.2 ≤ (c.1 / cfg.blockSize + 1) * cfg.blockSize := by
  have hreplay : Coordinator.getReplayBoundary cfg.cache r.numPromptTokens =
      cfg.replayBoundary r := (if_pos hreserve.ne').symm
  have hcoarse : cfg.mambaFineGrainedPrefixCache = false := by
    by_contra h
    simpa [hmethod hreserve] using hfine (Bool.eq_true_of_not_eq_false h)
  refine ⟨fun b hb hstart hend => ?_, hrun.within_block⟩
  refine hrun.mem_ends (fun start' budget hlt => ?_) hstart hend
  simp only [mem_cons, not_mem_nil, or_false, hreplay] at hb
  rcases hb with rfl | rfl | rfl
  · exact latestEnd_le_replay hlt budget
  · exact earliestStop_le (by simp [SplitConfig.stops]) hlt
  · have hpos : 0 < r.sharedPrefixBoundary := by
      have := Nat.div_mul_le_self r.sharedPrefixBoundary cfg.blockSize
      omega
    have hbelow : r.sharedPrefixBoundary < prefillEnd r := by
      unfold prefillEnd
      omega
    exact latestEnd_le_junction hcoarse hbelow hlt budget

def replayTwo (blockSize : ℕ+) : SplitConfig 1 :=
  { eightTokens blockSize with
    cache := { (eightTokens blockSize).cache with draftReplayReserve := 2 } }

/-- A prompt of 20 tokens in chunks of up to 8 tokens stops at 16. -/
theorem boundaries_end_chunks_sixteen :
    ∃ chunks, Prefills (replayTwo 4) twentyTokens 0 chunks ∧ 16 ∈ chunks.map Prod.snd := by
  have hrun : Prefills (replayTwo 4) twentyTokens 0 [(0, 8), (8, 16), (16, 20)] := by
    refine @Prefills.chunk _ _ _ 0 0 0 0 8 8 _ (by decide) rfl rfl (by decide) (by decide) ?_
    refine @Prefills.chunk _ _ _ 8 8 0 0 8 8 _ (by decide) rfl rfl (by decide) (by decide) ?_
    refine @Prefills.chunk _ _ _ 16 16 0 0 8 4 _ (by decide) rfl rfl (by decide) (by decide) ?_
    exact .done (by decide)
  exact ⟨_, hrun, (boundaries_end_chunks hrun (by decide) (by decide) (by decide)
    (by decide)).1 16 (by decide) (by decide) (by decide)⟩

end Vllm.AlignedSplit
