import Vllm.StreamingSession

/-!
The managers of single KV cache groups. A manager keeps the block tables of all
requests for one group of layers and draws blocks from the shared pool. The
classes of the source become one record with a `ManagerKind`; this module has
the base class and the attention managers, the state fields of the Mamba
manager included. Cross attention, R-SWA and context parallelism are left out.
-/
namespace Vllm.CacheManagers

open Outcome BlockHashing BlockHashMap Pool
open StreamingSession (RequestStatus)

abbrev RequestId := ℕ

def cdiv (a b : ℕ) : ℕ := (a + b - 1) / b

/-- `k` blocks are enough exactly when they hold `a` tokens. -/
theorem cdiv_le_iff {a b k : ℕ} (hb : 0 < b) : cdiv a b ≤ k ↔ a ≤ k * b := by
  unfold cdiv
  rw [← Nat.lt_succ_iff, Nat.div_lt_iff_lt_mul hb, Nat.succ_mul]
  omega

theorem le_cdiv_mul (a : ℕ) {b : ℕ} (hb : 0 < b) : a ≤ cdiv a b * b :=
  (cdiv_le_iff hb).mp le_rfl

theorem cdiv_pos {a b : ℕ} (ha : 0 < a) (hb : 0 < b) : 0 < cdiv a b :=
  Nat.div_pos (by omega) hb

theorem cdiv_add_self (a : ℕ) {b : ℕ} (hb : 0 < b) : cdiv (a + b) b = cdiv a b + 1 := by
  unfold cdiv
  rw [show a + b + b - 1 = a + b - 1 + b by omega, Nat.add_div_right _ hb]

theorem cdiv_mul_self (l : ℕ) {s : ℕ} (hs : 0 < s) : cdiv (l * s) s = l := by
  unfold cdiv
  rw [Nat.add_sub_assoc (by omega), Nat.mul_comm, Nat.mul_add_div hs, Nat.div_eq_of_lt (by omega),
    Nat.add_zero]

theorem cdiv_of_mod_ne_zero {a s : ℕ} (hs : 0 < s) (h : a % s ≠ 0) : cdiv a s = a / s + 1 := by
  have hmod := Nat.mod_lt a hs
  have hdecomp := Nat.div_add_mod a s
  have hsum : a + s - 1 = s * (a / s + 1) + (a % s - 1) := by
    rw [Nat.mul_succ]
    omega
  have hzero : (a % s - 1) / s = 0 := Nat.div_eq_of_lt (by omega)
  unfold cdiv
  rw [hsum, Nat.mul_add_div hs, hzero, Nat.add_zero]

theorem cdiv_mul_mul {x s h : ℕ} (hh : 0 < h) (hs : 0 < s) : cdiv (x * h) (s * h) = cdiv x s := by
  unfold cdiv
  have hdiv : (x * h + s * h - 1) / h = x + s - 1 := by
    obtain ⟨k, hk⟩ : ∃ k, x + s = k + 1 := ⟨x + s - 1, by omega⟩
    rw [← Nat.add_mul, hk, Nat.succ_mul, Nat.add_sub_assoc hh, Nat.mul_comm,
      Nat.mul_add_div hh, Nat.div_eq_of_lt (by omega)]
    omega
  rw [Nat.mul_comm s h, ← Nat.div_div_eq_div_mul, Nat.mul_comm h s, hdiv]

structure CacheRequest extends Request where
  requestId : RequestId
  status : RequestStatus
  numComputedTokens : ℕ
  numInFlightTokens : ℕ
  sharedPrefixBoundary : ℕ

structure MambaSpec where
  numSpeculativeBlocks : ℕ
  numPrefillCheckpointBlocks : ℕ
  prefillCheckpointAlignment : Option ℕ
deriving DecidableEq, Repr

inductive ManagerKind where
  | fullAttention
  | slidingWindow (slidingWindow : ℕ+) (extraRetainedTokens : ℕ)
  | dflashRing (slidingWindow : ℕ+) (extraRetainedTokens : ℕ)
  | circularBuffer
  | chunkedLocal (attentionChunkSize : ℕ)
  | mamba (spec : MambaSpec)
deriving DecidableEq, Repr

structure MambaState (n : ℕ) where
  cachedBlocksThisStep : List BlockHashWithGroupId
  lastStateBlockIdx : RequestId → Option ℕ
  numRetiredBlocks : RequestId → ℕ
  allocatedBlockReqs : RequestId → Bool
  checkpoints : RequestId → Option (ℕ × ℕ)
  producerBoundaryStateReqs : RequestId → Option ℕ
  alignedStateCowReqs : RequestId → Option (ℕ × Fin n)
  freedBoundaryBlocks : RequestId → List (Fin n × BlockHashWithGroupId × ℕ)
  pendingBoundaryStateOffloads : List (RequestId × GroupId × Fin n × ℕ)

structure ManagerConfig where
  kind : ManagerKind
  blockSize : ℕ
  blockSize_pos : 0 < blockSize
  enableCaching : Bool
  kvCacheGroupId : GroupId
  prefixCacheable : Bool
  cacheHitAlignmentTokens : ℕ
  useEagle : Bool
  fineGrainedPrefixCache : Bool
  dropEagleCheckpointBlock : Bool
  recordNewBlockIds : Bool
  maxAdmissionBlocksPerRequest : Option ℕ

structure Manager (n : ℕ) where
  reqToBlocks : RequestId → List (Fin n)
  numCachedBlock : RequestId → Option ℕ
  partialHitReqs : RequestId → Option (ℕ × Fin n)
  pendingCowCopies : List (Fin n × Fin n)
  newBlockIds : List (Fin n)
  mamba : MambaState n

structure Group (n : ℕ) where
  pool : BlockPool n
  manager : Manager n

abbrev ManagerM (n : ℕ) := EStateM Failure (Group n)

variable {n : ℕ}

def onPool {α : Type} (m : PoolM n α) : ManagerM n α :=
  zoom (fun g => g.pool) (fun g pool => { g with pool }) m

def modifyManager (f : Manager n → Manager n) : ManagerM n PUnit :=
  modify fun g => { g with manager := f g.manager }

namespace Manager

variable (m : Manager n) (r : RequestId)

def setBlocks (blocks : List (Fin n)) : Manager n :=
  { m with reqToBlocks := Function.update m.reqToBlocks r blocks }

def setNumCachedBlock (k : Option ℕ) : Manager n :=
  { m with numCachedBlock := Function.update m.numCachedBlock r k }

def setPartialHit (hit : Option (ℕ × Fin n)) : Manager n :=
  { m with partialHitReqs := Function.update m.partialHitReqs r hit }

def recordBlocks (cfg : ManagerConfig) (blocks : List (Fin n)) : Manager n :=
  -- New block ids are recorded only for workers that zero them.
  { m with newBlockIds := if cfg.recordNewBlockIds then m.newBlockIds ++ blocks else m.newBlockIds }

end Manager

namespace ManagerConfig

variable (cfg : ManagerConfig)

/-- `get_num_skipped_tokens`: tokens outside the attention window. -/
def getNumSkippedTokens (numComputedTokens : ℕ) : ℕ :=
  match cfg.kind with
  | .fullAttention => 0
  | .slidingWindow window extra => numComputedTokens + 1 - window - extra
  | .dflashRing window extra => numComputedTokens + 1 - window - extra
  | .circularBuffer => 0
  | .chunkedLocal chunk => numComputedTokens / chunk * chunk
  | .mamba _ => numComputedTokens - 1

def numSkippedBlocks (numComputedTokens : ℕ) : ℕ :=
  cfg.getNumSkippedTokens numComputedTokens / cfg.blockSize

def hasPartialLocalHit (newComputedBlocks : List (Fin n)) (numLocalComputedTokens : ℕ) : Bool :=
  newComputedBlocks ≠ [] ∧ numLocalComputedTokens % cfg.blockSize ≠ 0

end ManagerConfig

def getNumEvictableBlocks (pool : BlockPool n) (blocks : List (Fin n)) : ℕ :=
  (blocks.filter fun b => (pool.blocks b).refCnt = 0 ∧ (pool.blocks b).isNull = false).length

def admissionCap (cfg : ManagerConfig) (applyAdmissionCap : Bool) (numRequiredBlocks : ℕ) : ℕ :=
  match applyAdmissionCap, cfg.maxAdmissionBlocksPerRequest with
  | true, some cap => min numRequiredBlocks cap
  | _, _ => numRequiredBlocks

def firstTimeBlocks (cfg : ManagerConfig) (g : Group n) (r : RequestId) (numRequiredBlocks : ℕ)
    (newComputedBlocks : List (Fin n)) (totalComputedTokens numLocalComputedTokens : ℕ) : ℕ :=
  let numReqBlocks := (g.manager.reqToBlocks r).length
  let numSkippedBlocks := cfg.numSkippedBlocks totalComputedTokens
  let numNewBlocks :=
    numRequiredBlocks - max numSkippedBlocks (newComputedBlocks.length + numReqBlocks)
  let numEvictableBlocks :=
    getNumEvictableBlocks g.pool (newComputedBlocks.drop (numSkippedBlocks - numReqBlocks))
  let numCowBlocks := (cfg.hasPartialLocalHit newComputedBlocks numLocalComputedTokens).toNat
  numNewBlocks + numCowBlocks + numEvictableBlocks

namespace Base

variable (cfg : ManagerConfig) (r : RequestId)

def getNumBlocksToAllocate (numTokens : ℕ) (newComputedBlocks : List (Fin n))
    (totalComputedTokens numLocalComputedTokens : ℕ) (applyAdmissionCap : Bool) : ManagerM n ℤ := do
  let g ← get
  let numRequiredBlocks := admissionCap cfg applyAdmissionCap (cdiv numTokens cfg.blockSize)
  if (g.manager.numCachedBlock r).isSome then
    check (newComputedBlocks = []) (.assertionError "len(new_computed_blocks) == 0")
    return ((numRequiredBlocks - (g.manager.reqToBlocks r).length : ℕ) : ℤ)
  else
    return (firstTimeBlocks cfg g r numRequiredBlocks newComputedBlocks totalComputedTokens
      numLocalComputedTokens : ℤ)

def touchComputed (newComputedBlocks : List (Fin n)) : ManagerM n PUnit := do
  -- Cache hits are touched when caching is on; without caching there are none.
  if cfg.enableCaching then
    onPool (touch newComputedBlocks)
  else
    check (newComputedBlocks = []) (.assertionError
      "Computed blocks should be empty when prefix caching is disabled")

/-- The bookkeeping of `add_local_computed_blocks`: skipped blocks are null, and
a partial tail is remembered for the copy-on-write redirect. -/
def attachComputed (m : Manager n) (null : Fin n) (r : RequestId) (numSkippedBlocks : ℕ)
    (newComputedBlocks : List (Fin n)) (numLocalComputedTokens : ℕ) : Manager n :=
  let blocks := List.replicate numSkippedBlocks null ++ newComputedBlocks
  let m := (m.setBlocks r blocks).setNumCachedBlock r (some blocks.length)
  match newComputedBlocks.getLast? with
  | none => m
  | some last =>
    if numLocalComputedTokens % cfg.blockSize ≠ 0 then
      let blockIdx := numLocalComputedTokens / cfg.blockSize
      (m.setPartialHit r (some (blockIdx, last))).setNumCachedBlock r (some blockIdx)
    else
      m

def addLocalComputedBlocks (newComputedBlocks : List (Fin n))
    (numLocalComputedTokens numExternalComputedTokens : ℕ) : ManagerM n PUnit := do
  let g ← get
  check (g.manager.reqToBlocks r = []) (.assertionError "len(req_blocks) == 0")
  let numSkippedBlocks :=
    cfg.numSkippedBlocks (numLocalComputedTokens + numExternalComputedTokens)
  touchComputed cfg (newComputedBlocks.drop numSkippedBlocks)
  modifyManager fun m => attachComputed cfg m g.pool.nullBlock r numSkippedBlocks
    (newComputedBlocks.drop numSkippedBlocks) numLocalComputedTokens

def extendBlocks (numNewBlocks : ℕ) : ManagerM n (List (Fin n)) := do
  let blocks ← onPool (getNewBlocks numNewBlocks)
  modifyManager fun m => (m.setBlocks r (m.reqToBlocks r ++ blocks)).recordBlocks cfg blocks
  return blocks

def allocateExternalComputedBlocks (numLocalComputedTokens numExternalComputedTokens : ℕ) :
    ManagerM n PUnit := do
  let g ← get
  let numTotalComputedTokens := numLocalComputedTokens + numExternalComputedTokens
  let numSkippedTokens := cfg.getNumSkippedTokens numTotalComputedTokens
  let numExternal :=
    if 0 < numSkippedTokens then
      min (numTotalComputedTokens - numSkippedTokens) numExternalComputedTokens
    else
      numExternalComputedTokens
  onlyIf (0 < numExternal) do
    discard <| extendBlocks cfg r
      (cdiv numTotalComputedTokens cfg.blockSize - (g.manager.reqToBlocks r).length)

def applyCow (blockIdx : ℕ) (sourceBlock cowBlock : Fin n) : ManagerM n PUnit := do
  -- The table entry is redirected to a private copy, which gets a second reference until the copy
  -- has run.
  let g ← get
  let blocks := g.manager.reqToBlocks r
  check (blockIdx < blocks.length) (.assertionError "block_idx < len(req_blocks)")
  check (blocks[blockIdx]? = some sourceBlock)
    (.assertionError "req_blocks[block_idx] is source_block")
  check ((g.pool.blocks sourceBlock).isNull = false ∧ 0 < (g.pool.blocks sourceBlock).refCnt)
    (.assertionError "not source_block.is_null and source_block.ref_cnt > 0")
  modifyManager fun m =>
    { m.setBlocks r (blocks.set blockIdx cowBlock) with
      pendingCowCopies := m.pendingCowCopies ++ [(sourceBlock, cowBlock)] }
  onPool (modify fun s => s.addRef cowBlock 1)

def redirectPartialHit : ManagerM n (List (Fin n)) := do
  -- A partial hit is redirected to a private block before it is written.
  let g ← get
  match g.manager.partialHitReqs r with
  | none => return []
  | some (blockIdx, sourceBlock) =>
    modifyManager fun m => m.setPartialHit r none
    let blocks ← onPool (getNewBlocks 1)
    let cowBlock ← expect blocks.head? indexError
    applyCow r blockIdx sourceBlock cowBlock
    modifyManager fun m => { m with newBlockIds := m.newBlockIds ++ [cowBlock] }
    return [cowBlock]

def allocateNewBlocks (numTokens : ℕ) : ManagerM n (List (Fin n)) := do
  let cowBlocks ← redirectPartialHit r
  let g ← get
  let numRequiredBlocks := cdiv numTokens cfg.blockSize
  let numReqBlocks := (g.manager.reqToBlocks r).length
  if numRequiredBlocks ≤ numReqBlocks then
    return cowBlocks
  else
    let newBlocks ← extendBlocks cfg r (numRequiredBlocks - numReqBlocks)
    return cowBlocks ++ newBlocks

/-- The loop of `_remove_blocks_in_range`, backward from index `last`: blocks
are replaced by the null block until one is null already. -/
def removeLoop (null : Fin n) (first : ℕ) : ℕ → List (Fin n) → List (Fin n) × List (Fin n)
  | 0, blocks => ([], blocks)
  | last + 1, blocks =>
    match blocks[last]? with
    | none => ([], blocks)
    | some b =>
      if last < first ∨ b = null then
        ([], blocks)
      else
        let (freed, blocks) := removeLoop null first last (blocks.set last null)
        (b :: freed, blocks)

def removeBlocksInRange (firstBlock lastBlock : ℕ) : ManagerM n PUnit := do
  let g ← get
  let blocks := g.manager.reqToBlocks r
  let (freed, blocks) :=
    removeLoop g.pool.nullBlock firstBlock (min lastBlock blocks.length) blocks
  onlyIf (freed ≠ []) do
    modifyManager fun m => m.setBlocks r blocks
    onPool (freeBlocks freed)

def removeSkippedBlocks (processedComputedTokens : ℕ) : ManagerM n PUnit := do
  let g ← get
  onlyIf (0 < cfg.getNumSkippedTokens processedComputedTokens) do
    removeBlocksInRange r 0
      (min (cfg.numSkippedBlocks processedComputedTokens) (g.manager.reqToBlocks r).length)

end Base

/-- `_contiguous_blocks_for_hit`: the blocks a sliding-window hit needs. -/
def contiguousBlocksForHit (windowSize blockSize : ℕ) (useEagle : Bool) : ℕ :=
  cdiv (windowSize - 1) blockSize + if useEagle then 1 else 0

/-- `SlidingWindowManager.reachable_block_mask`: the tails that a hit at a
segment boundary, or at one of the given boundaries, needs. -/
def slidingWindowMask (blockSize window alignmentTokens : ℕ) (useEagle : Bool)
    (retentionInterval : Option ℕ) (startBlock endBlock : ℕ) (reachableBoundaries : List ℕ) :
    Option (List Bool) :=
  let need := contiguousBlocksForHit window blockSize useEagle
  let shift := if useEagle then 1 else 0
  let segmentTokens :=
    match retentionInterval with
    | none => some alignmentTokens
    | some 0 => none
    | some interval => some interval
  let inSegmentTail (i perSegment : ℕ) : Bool :=
    shift ≤ i ∧ perSegment - need ≤ (i - shift) % perSegment
  let inBoundaryTail (j : ℕ) : Bool :=
    retentionInterval.isSome ∧ ∃ boundaryTokens ∈ reachableBoundaries,
      let last := boundaryTokens / alignmentTokens * alignmentTokens / blockSize + shift
      last - need ≤ j ∧ j < last
  match segmentTokens with
  | none => some ((List.range' startBlock (endBlock - startBlock)).map inBoundaryTail)
  | some segment =>
    let perSegment := segment / blockSize
    if perSegment ≤ need then
      none
    else
      some ((List.range' startBlock (endBlock - startBlock)).map fun i =>
        inSegmentTail i perSegment || inBoundaryTail i)

/-- `MambaManager.reachable_block_mask`: the single state block that ends on a
segment boundary or on one of the given boundaries. -/
def mambaMask (blockSize alignmentTokens : ℕ) (retentionInterval : Option ℕ)
    (startBlock endBlock : ℕ) (reachableBoundaries : List ℕ) : Option (List Bool) :=
  let onBoundary (i : ℕ) : Bool :=
    ∃ boundaryTokens ∈ reachableBoundaries,
      i + 1 = boundaryTokens / alignmentTokens * alignmentTokens / blockSize
  match retentionInterval with
  | none => none
  | some 0 => some ((List.range' startBlock (endBlock - startBlock)).map onBoundary)
  | some interval =>
    let perSegment := interval / blockSize
    if perSegment ≤ 1 then
      none
    else
      some ((List.range' startBlock (endBlock - startBlock)).map fun i =>
        decide ((i + 1) % perSegment = 0) || onBoundary i)

def reachableBlockMask (cfg : ManagerConfig) (startBlock endBlock : ℕ)
    (retentionInterval : Option ℕ) (reachableBoundaries : List ℕ) :
    ManagerM n (Option (List Bool)) :=
  -- Only sliding-window and Mamba managers leave blocks out.
  match cfg.kind with
  | .slidingWindow window _ | .dflashRing window _ => do
    check (cfg.cacheHitAlignmentTokens % cfg.blockSize = 0)
      (.assertionError "alignment_tokens % kv_cache_spec.block_size == 0")
    return slidingWindowMask cfg.blockSize window cfg.cacheHitAlignmentTokens cfg.useEagle
      retentionInterval startBlock endBlock reachableBoundaries
  | .mamba _ =>
    return mambaMask cfg.blockSize cfg.cacheHitAlignmentTokens retentionInterval startBlock endBlock
      reachableBoundaries
  | _ => return none

/-- The boundaries whose tails are retained: the replay boundary and a shared
prefix, if one was detected. -/
def retainedBoundaries (r : CacheRequest) (replayBoundary : ℕ) : List ℕ :=
  if r.sharedPrefixBoundary = 0 then [replayBoundary]
  else [replayBoundary, r.sharedPrefixBoundary]

namespace Base

def cacheBlocks (cfg : ManagerConfig) (r : CacheRequest) (numTokens : ℕ)
    (retentionInterval : Option ℕ) (replayBoundary : ℕ) : ManagerM n PUnit := do
  let g ← get
  let m := g.manager
  let numCachedBlocks := (m.numCachedBlock r.requestId).getD 0
  let numFullBlocks := numTokens / cfg.blockSize
  onlyIf (cfg.prefixCacheable ∧ numCachedBlocks < numFullBlocks) do
    let blockMask ← reachableBlockMask cfg numCachedBlocks numFullBlocks retentionInterval
      (retainedBoundaries r replayBoundary)
    onPool (cacheFullBlocks r.toRequest (m.reqToBlocks r.requestId) numCachedBlocks numFullBlocks
      cfg.blockSize cfg.kvCacheGroupId blockMask)
    modifyManager fun m => m.setNumCachedBlock r.requestId (some numFullBlocks)

def popBlocksForFree (r : RequestId) : ManagerM n (List (Fin n)) := do
  let g ← get
  modifyManager fun m => ((m.setBlocks r []).setNumCachedBlock r none).setPartialHit r none
  return g.manager.reqToBlocks r

end Base

namespace FullAttention

variable (cfg : ManagerConfig) (r : CacheRequest)

def cachePartialTailBlock (numTokens : ℕ) : ManagerM n PUnit := do
  -- The last hash boundary of the prompt, when it lies inside a block.
  let g ← get
  let hashBlockSize := g.pool.hashBlockSize
  let boundaryTokens := r.numPromptTokens / hashBlockSize * hashBlockSize
  onlyIf (0 < boundaryTokens ∧ boundaryTokens ≤ numTokens ∧ boundaryTokens % cfg.blockSize ≠ 0) do
    match (g.manager.reqToBlocks r.requestId)[boundaryTokens / cfg.blockSize]? with
    | none => pure ⟨⟩
    | some b =>
      discard <| onPool (cachePartialBlock r.toRequest b boundaryTokens cfg.kvCacheGroupId
        cfg.blockSize false)

def cacheBlocks (numTokens : ℕ) (retentionInterval : Option ℕ) (replayBoundary : ℕ) :
    ManagerM n PUnit := do
  Base.cacheBlocks cfg r numTokens retentionInterval replayBoundary
  let g ← get
  onlyIf (cfg.blockSize ≠ g.pool.hashBlockSize) (cachePartialTailBlock cfg r numTokens)

end FullAttention

namespace DFlashRing

def addLocalComputedBlocks (r : RequestId) (newComputedBlocks : List (Fin n))
    (numExternalComputedTokens : ℕ) : ManagerM n PUnit := do
  -- The worker owns the ring pages; the scheduler allocates none.
  check (newComputedBlocks = []) (.assertionError "not new_computed_blocks")
  check (numExternalComputedTokens = 0) (.assertionError "num_external_computed_tokens == 0")
  modifyManager fun m => m.setNumCachedBlock r (some 0)

def allocateExternalComputedBlocks (numExternalComputedTokens : ℕ) : ManagerM n PUnit :=
  check (numExternalComputedTokens = 0) (.assertionError "num_external_computed_tokens == 0")

end DFlashRing

namespace CircularBuffer

def claimRingBlock (cfg : ManagerConfig) (r : RequestId) : ManagerM n (List (Fin n)) := do
  -- One block for the whole request.
  let g ← get
  if g.manager.reqToBlocks r = [] then
    Base.extendBlocks cfg r 1
  else
    return []

end CircularBuffer

end Vllm.CacheManagers
