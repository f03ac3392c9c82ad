import Vllm.MambaManager

/-!
The KV cache manager: one manager per KV cache group over one block pool. The
coordinator's loops over the groups and `allocate_slots` are translated here;
`allocate_slots` is cut into its three parts, the admission check, the
allocation and the registration of hashes. Statistics are left out.
-/
namespace Vllm.KVCacheManager

open Outcome Pool CacheManagers

variable {n m : ℕ}

/-! ### The methods of a manager, by kind -/

namespace Manager

variable (cfg : ManagerConfig) (r : RequestId)

def getNumBlocksToAllocate (numTokens : ℕ) (newComputedBlocks : List (Fin n))
    (totalComputedTokens numLocalComputedTokens numTokensMainModel : ℕ) (applyAdmissionCap : Bool) :
    ManagerM n ℤ :=
  match cfg.kind with
  | .dflashRing _ _ => return 0
  | .circularBuffer => do
    let g ← get
    return if g.manager.reqToBlocks r = [] then 1 else 0
  | .mamba spec =>
    MambaManager.getNumBlocksToAllocate cfg spec r numTokens newComputedBlocks totalComputedTokens
      numLocalComputedTokens numTokensMainModel applyAdmissionCap
  | _ =>
    Base.getNumBlocksToAllocate cfg r numTokens newComputedBlocks totalComputedTokens
      numLocalComputedTokens applyAdmissionCap

def addLocalComputedBlocks (newComputedBlocks : List (Fin n))
    (numLocalComputedTokens numExternalComputedTokens : ℕ) : ManagerM n PUnit :=
  match cfg.kind with
  | .dflashRing _ _ =>
    DFlashRing.addLocalComputedBlocks r newComputedBlocks numExternalComputedTokens
  | .circularBuffer => pure ⟨⟩
  | .mamba _ =>
    MambaManager.addLocalComputedBlocks cfg r newComputedBlocks numLocalComputedTokens
      numExternalComputedTokens
  | _ =>
    Base.addLocalComputedBlocks cfg r newComputedBlocks numLocalComputedTokens
      numExternalComputedTokens

def allocateExternalComputedBlocks (numLocalComputedTokens numExternalComputedTokens : ℕ) :
    ManagerM n PUnit :=
  match cfg.kind with
  | .dflashRing _ _ => DFlashRing.allocateExternalComputedBlocks numExternalComputedTokens
  | .circularBuffer => discard <| CircularBuffer.claimRingBlock cfg r
  | _ =>
    Base.allocateExternalComputedBlocks cfg r numLocalComputedTokens numExternalComputedTokens

def allocateNewBlocks (numTokens numTokensMainModel : ℕ) : ManagerM n (List (Fin n)) :=
  match cfg.kind with
  | .dflashRing _ _ => return []
  | .circularBuffer => CircularBuffer.claimRingBlock cfg r
  | .mamba spec => MambaManager.allocateNewBlocks cfg spec r numTokens numTokensMainModel
  | _ => Base.allocateNewBlocks cfg r numTokens

def removeSkippedBlocks (processedComputedTokens : ℕ) : ManagerM n PUnit :=
  match cfg.kind with
  | .dflashRing _ _ => pure ⟨⟩
  | .circularBuffer => pure ⟨⟩
  | .mamba _ => MambaManager.removeSkippedBlocks cfg r processedComputedTokens
  | _ => Base.removeSkippedBlocks cfg r processedComputedTokens

def cacheBlocks (r : CacheRequest) (numTokens : ℕ) (retentionInterval : Option ℕ)
    (replayBoundary : ℕ) : ManagerM n PUnit :=
  match cfg.kind with
  | .fullAttention => FullAttention.cacheBlocks cfg r numTokens retentionInterval replayBoundary
  | .circularBuffer => pure ⟨⟩
  | .mamba _ => MambaManager.cacheBlocks cfg r numTokens retentionInterval replayBoundary
  | _ => Base.cacheBlocks cfg r numTokens retentionInterval replayBoundary

def popBlocksForFree : ManagerM n (List (Fin n)) :=
  match cfg.kind with
  | .mamba _ => MambaManager.popBlocksForFree r
  | _ => Base.popBlocksForFree r

def free : ManagerM n PUnit := do
  -- Tail blocks are freed first.
  let blocks ← popBlocksForFree cfg r
  onPool (freeBlocks blocks.reverse)

def newStepStarts : ManagerM n PUnit :=
  match cfg.kind with
  | .mamba _ => MambaManager.newStepStarts
  | _ => pure ⟨⟩

end Manager

/-! ### The coordinator -/

/-- What is fixed at start-up. A reserve of 0 means that no draft window has to
be replayed. `hybrid` is `some enable_partial_hash_hits` for the hybrid
coordinator and `none` for the other two. -/
structure Config (m : ℕ) where
  groups : Fin m → ManagerConfig
  hybrid : Option Bool
  maxModelLen : ℕ
  schedulerBlockSize : ℕ
  enableCaching : Bool
  useEagleBlockDrop : Bool
  draftReplayReserve : ℕ
  numReprefillableTokens : ℕ
  retentionInterval : Option ℕ
  watermarkBlocks : ℕ

def Config.single (kind : ManagerKind) (blockSize : ℕ+) (enableCaching : Bool)
    (maxModelLen : ℕ) : Config 1 where
  groups _ :=
    { kind
      blockSize
      blockSize_pos := blockSize.pos
      enableCaching
      kvCacheGroupId := 0
      prefixCacheable := true
      cacheHitAlignmentTokens := blockSize
      useEagle := false
      fineGrainedPrefixCache := false
      dropEagleCheckpointBlock := false
      recordNewBlockIds := false
      maxAdmissionBlocksPerRequest := none }
  hybrid := none
  maxModelLen
  schedulerBlockSize := blockSize
  enableCaching
  useEagleBlockDrop := false
  draftReplayReserve := 0
  numReprefillableTokens := 0
  retentionInterval := none
  watermarkBlocks := 0

structure CacheState (n m : ℕ) where
  pool : BlockPool n
  managers : Fin m → Manager n

abbrev CacheM (n m : ℕ) := EStateM Failure (CacheState n m)

namespace CacheState

def group (s : CacheState n m) (i : Fin m) : Group n := ⟨s.pool, s.managers i⟩

def setGroup (s : CacheState n m) (i : Fin m) (g : Group n) : CacheState n m :=
  { pool := g.pool, managers := Function.update s.managers i g.manager }

end CacheState

def onGroup {α : Type} (i : Fin m) (op : ManagerM n α) : CacheM n m α :=
  zoom (fun s => s.group i) (fun s g => s.setGroup i g) op

def forGroups (op : Fin m → ManagerM n PUnit) : CacheM n m PUnit :=
  forM (List.finRange m) fun i => onGroup i (op i)

namespace Coordinator

def sumLoop (op : Fin m → ManagerM n ℤ) : List (Fin m) → CacheM n m ℤ
  | [] => return 0
  | i :: is => do
    let k ← onGroup i (op i)
    let rest ← sumLoop op is
    return k + rest

variable (cfg : Config m) (r : RequestId)

def getNumBlocksToAllocate (numTokens : ℕ) (newComputedBlocks : Fin m → List (Fin n))
    (totalComputedTokens numLocalComputedTokens numTokensMainModel : ℕ) (applyAdmissionCap : Bool) :
    CacheM n m ℤ :=
  sumLoop (fun i => Manager.getNumBlocksToAllocate (cfg.groups i) r numTokens (newComputedBlocks i)
    totalComputedTokens numLocalComputedTokens numTokensMainModel applyAdmissionCap)
    (List.finRange m)

def allocateNewComputedBlocks (newComputedBlocks : Fin m → List (Fin n))
    (numLocalComputedTokens numExternalComputedTokens : ℕ) : CacheM n m PUnit := do
  -- A request that some group tracks is running: it has no new hits. Otherwise the hits of all
  -- groups are touched before any block is drawn.
  let s ← get
  if ∃ i, ((s.managers i).numCachedBlock r).isSome then
    check (∀ i, newComputedBlocks i = [])
      (.assertionError "all(len(blocks) == 0 for blocks in new_computed_blocks)")
  else
    forGroups fun i => Manager.addLocalComputedBlocks (cfg.groups i) r (newComputedBlocks i)
      numLocalComputedTokens numExternalComputedTokens
    onlyIf (0 < numExternalComputedTokens) do
      forGroups fun i => Manager.allocateExternalComputedBlocks (cfg.groups i) r
        numLocalComputedTokens numExternalComputedTokens

def allocateNewBlocks (numTokens numTokensMainModel : ℕ) : CacheM n m PUnit :=
  forGroups fun i =>
    discard <| Manager.allocateNewBlocks (cfg.groups i) r numTokens numTokensMainModel

def removeSkippedBlocks (processedComputedTokens : ℕ) : CacheM n m PUnit :=
  forGroups fun i => Manager.removeSkippedBlocks (cfg.groups i) r processedComputedTokens

def getReplayBoundary (numPromptTokens : ℕ) : ℕ :=
  if cfg.draftReplayReserve ≠ 0 then
    (numPromptTokens - 1 - cfg.draftReplayReserve) / cfg.schedulerBlockSize *
      cfg.schedulerBlockSize
  else if cfg.useEagleBlockDrop then
    numPromptTokens / cfg.schedulerBlockSize * cfg.schedulerBlockSize - cfg.schedulerBlockSize
  else
    numPromptTokens - 1

/-- `_align_cacheable`: the longest part that a later hit could match. -/
def alignCacheable (enablePartialHashHits : Bool) (numTokens : ℕ) : ℕ :=
  if enablePartialHashHits then numTokens
  else numTokens / cfg.schedulerBlockSize * cfg.schedulerBlockSize

def numTokensToCache (i : Fin m) (numComputedTokens : ℕ) : ℕ :=
  -- The tokens that `cache_blocks` hands to group `i`. Tokens that multi-module MTP prefills
  -- again are not final; the hybrid coordinator leaves room for the block that EAGLE groups match
  -- past an aligned boundary.
  let numFinalized := numComputedTokens - cfg.numReprefillableTokens
  match cfg.hybrid with
  | none => numFinalized
  | some partialHits =>
    let cached := alignCacheable cfg partialHits numComputedTokens
    if (cfg.groups i).useEagle ∧ 0 < cached then
      min numFinalized (alignCacheable cfg partialHits numFinalized + (cfg.groups i).blockSize)
    else
      cached

def cacheBlocks (r : CacheRequest) (numComputedTokens : ℕ) : CacheM n m PUnit :=
  forGroups fun i => Manager.cacheBlocks (cfg.groups i) r
    (numTokensToCache cfg i numComputedTokens) cfg.retentionInterval
    (getReplayBoundary cfg r.numPromptTokens)

def free : CacheM n m PUnit :=
  forGroups fun i => Manager.free (cfg.groups i) r

def gatherLoop (op : Fin m → ManagerM n (List (Fin n))) : List (Fin m) → CacheM n m (List (Fin n))
  | [] => return []
  | i :: is => do
    let blocks ← onGroup i (op i)
    let rest ← gatherLoop op is
    return blocks ++ rest

def popBlocksForFree : CacheM n m (List (Fin n)) :=
  -- The caller has to free the blocks, in reverse order.
  gatherLoop (fun i => Manager.popBlocksForFree (cfg.groups i) r) (List.finRange m)

def newStepStarts : CacheM n m PUnit :=
  forGroups fun i => Manager.newStepStarts (cfg.groups i)

end Coordinator

/-! ### Slot allocation -/

/-- The arguments of one `allocate_slots` call. `newComputedBlocks` is `none`
for the shared empty block lists, which the source tells apart by identity. -/
structure SlotCall (n m : ℕ) where
  request : CacheRequest
  numNewTokens : ℕ
  numNewComputedTokens : ℕ
  newComputedBlocks : Option (Fin m → List (Fin n))
  numLookaheadTokens : ℕ
  numExternalComputedTokens : ℕ
  delayCacheBlocks : Bool
  fullSequenceMustFit : Bool
  reservedBlocks : ℕ
  hasScheduledReqs : Bool

namespace SlotCall

variable (c : SlotCall n m) (cfg : Config m)

def newComputedBlockList : Fin m → List (Fin n) :=
  c.newComputedBlocks.getD fun _ => []

def numLocalComputedTokens : ℕ :=
  c.request.numComputedTokens + c.numNewComputedTokens

def allComputedTokens : ℕ :=
  c.numLocalComputedTokens + c.numExternalComputedTokens

def totalComputedTokens : ℕ :=
  min c.allComputedTokens cfg.maxModelLen

def numTokensMainModel : ℕ :=
  c.totalComputedTokens cfg + c.numNewTokens

def numTokensNeedSlot : ℕ :=
  min (c.numTokensMainModel cfg + c.numLookaheadTokens) cfg.maxModelLen

def watermarkBlocks : ℕ :=
  -- The watermark holds for waiting and preempted requests only.
  if c.hasScheduledReqs ∧ (c.request.status = .waiting ∨ c.request.status = .preempted) then
    cfg.watermarkBlocks
  else
    0

end SlotCall

variable (cfg : Config m) (c : SlotCall n m)

def fullSequenceFits : CacheM n m Bool := do
  if c.fullSequenceMustFit then
    let fullNumTokens := min c.request.numTokens cfg.maxModelLen
    let numBlocksToAllocate ← Coordinator.getNumBlocksToAllocate cfg c.request.requestId
      fullNumTokens c.newComputedBlockList (c.totalComputedTokens cfg) c.numLocalComputedTokens
      fullNumTokens true
    let s ← get
    return decide (numBlocksToAllocate + c.watermarkBlocks cfg ≤ s.pool.getNumFreeBlocks)
  else
    return true

def predictedBlocks : CacheM n m ℤ :=
  Coordinator.getNumBlocksToAllocate cfg c.request.requestId (c.numTokensNeedSlot cfg)
    c.newComputedBlockList c.allComputedTokens c.numLocalComputedTokens
    (c.numTokensMainModel cfg) false

/-- The part of `allocate_slots` up to its free-block check: the prediction of
an allocation that passes, `none` for one that does not. -/
def admitSlots : CacheM n m (Option ℤ) := do
  check (c.numNewTokens ≠ 0 ∨ c.numExternalComputedTokens ≠ 0) (.valueError
    ("num_new_tokens must be greater than 0 when there are no " ++ "external computed tokens"))
  let fits ← fullSequenceFits cfg c
  if fits then
    Coordinator.removeSkippedBlocks cfg c.request.requestId
      (c.totalComputedTokens cfg - c.request.numInFlightTokens)
    let numBlocksToAllocate ← predictedBlocks cfg c
    let s ← get
    let availableBlocks : ℤ := s.pool.getNumFreeBlocks - c.reservedBlocks
    if numBlocksToAllocate + c.watermarkBlocks cfg > availableBlocks then
      return none
    else
      return some numBlocksToAllocate
  else
    return none

def takeBlocks : CacheM n m PUnit := do
  onlyIf (c.newComputedBlocks.isSome ∨ 0 < c.numExternalComputedTokens) do
    Coordinator.allocateNewComputedBlocks cfg c.request.requestId c.newComputedBlockList
      c.numLocalComputedTokens c.numExternalComputedTokens
  Coordinator.allocateNewBlocks cfg c.request.requestId (c.numTokensNeedSlot cfg)
    (c.numTokensMainModel cfg)

def commitBlocks : CacheM n m PUnit :=
  -- The registration of hashes. Draft tokens are not committed, so the count is capped at the
  -- tokens of the request.
  onlyIf (cfg.enableCaching ∧ c.delayCacheBlocks = false) do
    Coordinator.cacheBlocks cfg c.request
      (min (c.totalComputedTokens cfg + c.numNewTokens) c.request.numTokens)

/-- `allocate_slots`: whether the slots were allocated. The returned blocks are
left out, they are read off the block tables. -/
def allocateSlots : CacheM n m Bool := do
  match ← admitSlots cfg c with
  | none => return false
  | some _ =>
    takeBlocks cfg c
    commitBlocks cfg c
    return true

/-- `KVCacheManager.cache_blocks`: cache the blocks, if enabled. -/
def cacheBlocks (r : CacheRequest) (numComputedTokens : ℕ) : CacheM n m PUnit :=
  onlyIf (cfg.enableCaching = true) (Coordinator.cacheBlocks cfg r numComputedTokens)

end Vllm.KVCacheManager
