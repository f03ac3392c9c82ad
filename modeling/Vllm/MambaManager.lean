import Vllm.CacheManagers

/-!
The Mamba manager in "align" mode. A request keeps one running state block
followed by its speculative blocks; earlier entries of the block table are null
or published snapshots. The other two cache modes of the source are left out.
-/
namespace Vllm.MambaManager

open Outcome BlockHashMap Pool CacheManagers

variable {n : ℕ}

def modifyMamba (f : MambaState n → MambaState n) : ManagerM n PUnit :=
  modifyManager fun m => { m with mamba := f m.mamba }

def getMambaPrefillCheckpointPosition (numTokens hashBlockSize : ℕ) (dropEagleBlock : Bool) : ℕ :=
  (numTokens - 1) / hashBlockSize * hashBlockSize - if dropEagleBlock then hashBlockSize else 0

/-- Columns are integers: a request that starts at token 0 has its initial
state in column -1. -/
def isMambaPrefillCheckpointValid (queryStart queryEnd checkpointPosition hashBlockSize
    mambaBlockSize : ℕ) (checkpointAlignment : Option ℕ) : Bool :=
  match checkpointAlignment with
  | none => false
  | some alignment =>
    let initialStateCol : ℤ := ((queryStart : ℤ) - 1) / mambaBlockSize
    let checkpointCol : ℤ := (cdiv queryEnd mambaBlockSize : ℤ) - 2
    queryStart % hashBlockSize = 0 ∧ initialStateCol < checkpointCol ∧
      queryStart + hashBlockSize ≤ checkpointPosition ∧
      queryStart < checkpointPosition ∧ checkpointPosition < queryEnd ∧
      (checkpointPosition - queryStart) % alignment = 0

variable (cfg : ManagerConfig) (spec : MambaSpec) (m : Manager n) (r : RequestId) (g : Group n)

def checkpointIdx (queryEnd : ℕ) : ℕ := cdiv queryEnd cfg.blockSize - 2

def needsInternalCheckpoint (r : RequestId) (queryStart queryEnd checkpointPosition : ℕ) :
    Bool :=
  let m := g.manager
  let idx := checkpointIdx cfg queryEnd
  let blocks := m.reqToBlocks r
  0 < spec.numPrefillCheckpointBlocks ∧
    isMambaPrefillCheckpointValid queryStart queryEnd checkpointPosition g.pool.hashBlockSize
      cfg.blockSize spec.prefillCheckpointAlignment ∧
    2 ≤ cdiv queryEnd cfg.blockSize ∧
    (blocks.length ≤ idx ∨ (∃ b ∈ blocks[idx]?, (g.pool.blocks b).isNull) ∨
      (m.mamba.allocatedBlockReqs r ∧ blocks.length - spec.numSpeculativeBlocks ≤ idx))

/-- `_align_tokens_for_lookahead`: the page after an exact boundary is made
real when lookahead tokens reach into it. -/
def alignTokensForLookahead (numTokens numTokensMainModel : ℕ) : ℕ × Bool :=
  let materializeNextPage : Bool :=
    numTokensMainModel < numTokens ∧ 0 < numTokensMainModel ∧ numTokensMainModel % cfg.blockSize = 0
  (if materializeNextPage then numTokensMainModel + cfg.blockSize else numTokensMainModel,
    materializeNextPage)

def hitDeferred (newComputedBlocks : List (Fin n)) : Bool :=
  -- A hit on a state that another request writes in this step must wait.
  ∃ b ∈ newComputedBlocks.getLast?, ∃ key ∈ (g.pool.blocks b).blockHash,
    g.manager.mamba.cachedBlocksThisStep.contains key

def hasAlignedStateCow (r : RequestId) (newComputedBlocks : List (Fin n))
    (totalComputedTokens numLocalComputedTokens : ℕ) : Bool :=
  -- A first hit on a full block is privatised as well; it is attached only after the admission
  -- check.
  (g.manager.mamba.alignedStateCowReqs r).isSome ∨
    (totalComputedTokens = numLocalComputedTokens ∧ 0 < numLocalComputedTokens ∧
      numLocalComputedTokens % cfg.blockSize = 0 ∧
      ∃ b ∈ newComputedBlocks.getLast?,
        (g.pool.blocks b).isNull = false ∧ (g.pool.blocks b).blockHash.isSome)

/-- The checkpoint that the coming step leaves inside its chunk, with its table
index. -/
def plannedCheckpoint (r : RequestId) (totalComputedTokens numTokensMainModel : ℕ) :
    Option (ℕ × ℕ) :=
  let position := getMambaPrefillCheckpointPosition numTokensMainModel g.pool.hashBlockSize
    cfg.dropEagleCheckpointBlock
  if 0 < position ∧
      needsInternalCheckpoint cfg spec g r totalComputedTokens numTokensMainModel position then
    some (position, checkpointIdx cfg numTokensMainModel)
  else
    none

def physicalBlockCap (numCowBlocks checkpointBlock : ℕ)
    (blocksAllocated materializeNextPage : Bool) : ℕ :=
  1 + numCowBlocks + checkpointBlock +
    (if blocksAllocated = false ∨ checkpointBlock ≠ 0 then spec.numSpeculativeBlocks else 0) +
    (if materializeNextPage then 1 else 0)

/-- The new blocks of the prediction, which may be negative for a request that
holds more blocks than it needs. -/
def predictedNewBlocks (r : RequestId) (numTokens numTokensMainModel : ℕ)
    (newComputedBlocks : List (Fin n)) (totalComputedTokens numLocalComputedTokens : ℕ) : ℤ :=
  let m := g.manager
  let (effectiveTokens, materializeNextPage) :=
    alignTokensForLookahead cfg numTokens numTokensMainModel
  let numRequiredBlocks := cdiv effectiveTokens cfg.blockSize + spec.numSpeculativeBlocks
  let base : ℤ :=
    (numRequiredBlocks : ℤ) - newComputedBlocks.length - (m.reqToBlocks r).length
  let hasPartialHit : Bool :=
    cfg.hasPartialLocalHit newComputedBlocks numLocalComputedTokens || (m.partialHitReqs r).isSome
  let numCowBlocks := hasPartialHit.toNat +
    (hasAlignedStateCow cfg g r newComputedBlocks totalComputedTokens numLocalComputedTokens).toNat
  let numNewBlocks := if numCowBlocks ≠ 0 then max base 0 + numCowBlocks else base
  let checkpointBlock :=
    (plannedCheckpoint cfg spec g r totalComputedTokens numTokensMainModel).isSome.toNat
  if 0 < numNewBlocks then
    min numNewBlocks (physicalBlockCap spec numCowBlocks checkpointBlock
      (m.mamba.allocatedBlockReqs r) materializeNextPage)
  else
    numNewBlocks

def getNumBlocksToAllocate (numTokens : ℕ) (newComputedBlocks : List (Fin n))
    (totalComputedTokens numLocalComputedTokens
    numTokensMainModel : ℕ) (applyAdmissionCap : Bool) : ManagerM n ℤ := do
  let g ← get
  if hitDeferred g newComputedBlocks then
    return (n : ℤ) + 1
  else
    onlyIf (applyAdmissionCap = false) <| modifyMamba fun s =>
      { s with
        checkpoints := Function.update s.checkpoints r
          (plannedCheckpoint cfg spec g r totalComputedTokens numTokensMainModel) }
    return predictedNewBlocks cfg spec g r numTokens numTokensMainModel newComputedBlocks
        totalComputedTokens numLocalComputedTokens +
      getNumEvictableBlocks g.pool newComputedBlocks

def attachAlignedState (numLocalComputedTokens numExternalComputedTokens : ℕ) :
    ManagerM n PUnit := do
  -- A full-block hit is the mutable state of the resumed request, so it is queued for
  -- copy-on-write.
  let g ← get
  let m := g.manager
  onlyIf (numExternalComputedTokens = 0 ∧ 0 < numLocalComputedTokens ∧
      numLocalComputedTokens % cfg.blockSize = 0) do
    let blockIdx := numLocalComputedTokens / cfg.blockSize - 1
    match (m.reqToBlocks r)[blockIdx]? with
    | none => pure ⟨⟩
    | some source =>
      onlyIf ((g.pool.blocks source).isNull = false ∧ (g.pool.blocks source).blockHash.isSome) do
        modifyMamba fun s =>
          { s with
            alignedStateCowReqs :=
              Function.update s.alignedStateCowReqs r (some (blockIdx, source)) }

def addLocalComputedBlocks (newComputedBlocks : List (Fin n))
    (numLocalComputedTokens numExternalComputedTokens : ℕ) : ManagerM n PUnit := do
  Base.addLocalComputedBlocks cfg r newComputedBlocks numLocalComputedTokens
    numExternalComputedTokens
  attachAlignedState cfg r numLocalComputedTokens numExternalComputedTokens

def previousStateIdx (spec : MambaSpec) (r : RequestId) : Option ℕ :=
  let prevBlockLen := (m.reqToBlocks r).length
  if m.mamba.allocatedBlockReqs r then
    some (prevBlockLen - 1 - spec.numSpeculativeBlocks)
  else if 0 < prevBlockLen then
    some (prevBlockLen - 1)
  else
    m.mamba.lastStateBlockIdx r

/-- The table padded with null blocks up to the running block, a checkpoint
slot left out. -/
def padBlocks (null : Fin n) (blocks : List (Fin n)) (numSkippedBlocks checkpointBlock : ℕ) :
    List (Fin n) :=
  if blocks.length < numSkippedBlocks then
    blocks ++ List.replicate (numSkippedBlocks - checkpointBlock - blocks.length) null
  else
    blocks

/-- `_relocate_speculative_block`: a scratch block moves to the end. -/
def relocateSpeculativeBlock (blockIdx : ℕ) : ManagerM n PUnit := do
  let g ← get
  let blocks := g.manager.reqToBlocks r
  let block ← expect blocks[blockIdx]? indexError
  check (g.pool.isBlockWritable block) (.assertionError
    ("Speculative Mamba blocks must be exclusively owned and unhashed " ++ "before relocation"))
  modifyManager fun m => m.setBlocks r (blocks.set blockIdx g.pool.nullBlock ++ [block])

/-- The copy-on-write of a running request: it stays on its block, and the
published entry moves to the copy. -/
def moveToCow (blockIdx : ℕ) (sourceBlock cowBlock : Fin n) : ManagerM n PUnit := do
  let g ← get
  check ((g.manager.reqToBlocks r)[blockIdx]? = some sourceBlock)
    (.assertionError "req_blocks[block_idx] is source_block")
  onPool (moveBlockHashes sourceBlock cowBlock)
  onPool (modify fun s => s.addRef sourceBlock 1)
  modifyManager fun m =>
    { m with
      pendingCowCopies := m.pendingCowCopies ++ [(sourceBlock, cowBlock)]
      mamba :=
        { m.mamba with
          producerBoundaryStateReqs := Function.update m.mamba.producerBoundaryStateReqs r none
          pendingBoundaryStateOffloads := m.mamba.pendingBoundaryStateOffloads ++
            ((m.mamba.producerBoundaryStateReqs r).map fun boundaryTokens =>
              (r, cfg.kvCacheGroupId, cowBlock, boundaryTokens)).toList } }
  let g ← get
  modifyMamba fun s =>
    { s with
      cachedBlocksThisStep :=
        s.cachedBlocksThisStep ++ (g.pool.blocks cowBlock).blockHash.toList }

/-- The pending copy-on-writes take the first new blocks; what is left of those,
and the blocks returned so far. -/
def applyPendingCows (cfg : ManagerConfig) (r : RequestId) (blocksAllocated : Bool) :
    List (ℕ × Fin n) → List (Fin n) → List (Fin n) → ManagerM n (List (Fin n) × List (Fin n))
  | [], newBlocks, returnedBlocks => return (newBlocks, returnedBlocks)
  | (blockIdx, sourceBlock) :: rest, newBlocks, returnedBlocks => do
    let cowBlock ← expect newBlocks.head? indexError
    if blocksAllocated then
      moveToCow cfg r blockIdx sourceBlock cowBlock
      applyPendingCows cfg r blocksAllocated rest newBlocks.tail returnedBlocks
    else
      Base.applyCow r blockIdx sourceBlock cowBlock
      applyPendingCows cfg r blocksAllocated rest newBlocks.tail (cowBlock :: returnedBlocks)

structure AllocationPlan (n : ℕ) where
  numRequiredBlocks : ℕ
  numSkippedBlocks : ℕ
  checkpointBlock : ℕ
  blocksAllocated : Bool
  materializeNextPage : Bool
  pendingCows : List (ℕ × Fin n)

def allocationPlan (numTokens numTokensMainModel : ℕ) : AllocationPlan n :=
  -- With a materialised next page the skipped blocks end before the page the main model writes.
  let (effectiveTokens, materializeNextPage) :=
    alignTokensForLookahead cfg numTokens numTokensMainModel
  { numRequiredBlocks := cdiv effectiveTokens cfg.blockSize + spec.numSpeculativeBlocks
    numSkippedBlocks :=
      if materializeNextPage then cdiv numTokensMainModel cfg.blockSize - 1
      else cdiv effectiveTokens cfg.blockSize - 1
    checkpointBlock := (m.mamba.checkpoints r).isSome.toNat
    blocksAllocated := m.mamba.allocatedBlockReqs r
    materializeNextPage
    pendingCows := (m.partialHitReqs r).toList ++ (m.mamba.alignedStateCowReqs r).toList }

def markAllocated : ManagerM n PUnit :=
  modifyMamba fun s => { s with allocatedBlockReqs := Function.update s.allocatedBlockReqs r true }

def shiftBlocks (plan : AllocationPlan n) : ManagerM n PUnit := do
  let g ← get
  let m := g.manager
  let prevBlockLen := (m.reqToBlocks r).length
  modifyManager fun m =>
    { m.setBlocks r (padBlocks g.pool.nullBlock (m.reqToBlocks r) plan.numSkippedBlocks
        plan.checkpointBlock) with
      mamba :=
        { m.mamba with
          lastStateBlockIdx :=
            Function.update m.mamba.lastStateBlockIdx r (previousStateIdx m spec r) } }
  onlyIf (plan.blocksAllocated ∧ plan.checkpointBlock = 0) do
    forM ((List.range' (prevBlockLen - spec.numSpeculativeBlocks)
        spec.numSpeculativeBlocks).takeWhile (· < plan.numSkippedBlocks))
      (relocateSpeculativeBlock r)

/-- The blocks are drawn, the pending copies get theirs, the rest extends the
table. -/
def drawBlocks (plan : AllocationPlan n) (prevBlockLen : ℕ) : ManagerM n (List (Fin n)) := do
  let g ← get
  let numCowBlocks := plan.pendingCows.length
  let numNewBlocks := plan.numRequiredBlocks - (g.manager.reqToBlocks r).length + numCowBlocks
  let maxNewBlocks := physicalBlockCap spec numCowBlocks plan.checkpointBlock plan.blocksAllocated
    plan.materializeNextPage
  check (numNewBlocks ≤ maxNewBlocks) (.assertionError "num_new_blocks <= max_new_blocks")
  let newBlocks ← onPool (getNewBlocks numNewBlocks)
  modifyManager fun m => m.recordBlocks cfg newBlocks
  let (newBlocks, returnedBlocks) ← applyPendingCows cfg r plan.blocksAllocated plan.pendingCows
    newBlocks ((g.manager.reqToBlocks r).drop prevBlockLen)
  modifyManager fun m =>
    { (m.setBlocks r (m.reqToBlocks r ++ newBlocks)).setPartialHit r none with
      mamba := { m.mamba with
        alignedStateCowReqs := Function.update m.mamba.alignedStateCowReqs r none } }
  markAllocated r
  return returnedBlocks ++ newBlocks

def allocateNewBlocks (numTokens numTokensMainModel : ℕ) : ManagerM n (List (Fin n)) := do
  let g ← get
  let plan := allocationPlan cfg spec g.manager r numTokens numTokensMainModel
  let prevBlockLen := (g.manager.reqToBlocks r).length
  if plan.numRequiredBlocks ≤ prevBlockLen ∧ plan.pendingCows = [] ∧ plan.checkpointBlock = 0 then
    markAllocated r
    return []
  else
    shiftBlocks spec r plan
    drawBlocks cfg spec r plan prevBlockLen

/-- `_on_blocks_freed_early`: published blocks are remembered for re-ageing. -/
def onBlocksFreedEarly (blocks : List (Fin n)) : ManagerM n PUnit := do
  let g ← get
  modifyMamba fun s =>
    { s with
      freedBoundaryBlocks := Function.update s.freedBoundaryBlocks r
        (s.freedBoundaryBlocks r ++ blocks.filterMap fun b =>
          (g.pool.blocks b).blockHash.map fun key =>
            (b, key, ((g.pool.blocks b).blockHashNumTokens).getD 0)) }

def retireLoop (pool : BlockPool n) (first : ℕ) : ℕ → List (Fin n) → List (Fin n) × List (Fin n)
  -- The blocks of `[first, last)` that are freed, last first, and the table after it. Published
  -- blocks stay.
  | 0, blocks => ([], blocks)
  | last + 1, blocks =>
    if last < first then
      ([], blocks)
    else
      match blocks[last]? with
      | none => retireLoop pool first last blocks
      | some b =>
        if (pool.blocks b).isNull ∨ (pool.blocks b).blockHash.isSome then
          retireLoop pool first last blocks
        else
          let (freed, blocks) := retireLoop pool first last (blocks.set last pool.nullBlock)
          (b :: freed, blocks)

def removeBlocksInRange (firstBlock lastBlock : ℕ) : ManagerM n PUnit := do
  let g ← get
  let blocks := g.manager.reqToBlocks r
  let first := max firstBlock (g.manager.mamba.numRetiredBlocks r)
  let last := min lastBlock blocks.length
  onlyIf (first < last) do
    let (freed, blocks) := retireLoop g.pool first last blocks
    modifyManager fun m => m.setBlocks r blocks
    onlyIf (freed ≠ []) do
      onPool (freeBlocks freed)
      onBlocksFreedEarly r freed
    modifyMamba fun s => { s with numRetiredBlocks := Function.update s.numRetiredBlocks r last }

def freeLastState (processedComputedTokens : ℕ) : ManagerM n PUnit := do
  let g ← get
  let m := g.manager
  match m.mamba.lastStateBlockIdx r with
  | none => pure ⟨⟩
  | some idx =>
    onlyIf (idx + 1 < cdiv processedComputedTokens cfg.blockSize) do
      let block ← expect (m.reqToBlocks r)[idx]? indexError
      onlyIf (block ≠ g.pool.nullBlock ∧ (g.pool.blocks block).blockHash = none) do
        onPool (freeBlocks [block])
        modifyManager fun m => m.setBlocks r ((m.reqToBlocks r).set idx g.pool.nullBlock)
        onBlocksFreedEarly r [block]

def removeSkippedBlocks (processedComputedTokens : ℕ) : ManagerM n PUnit := do
  let g ← get
  onlyIf (0 < cfg.getNumSkippedTokens processedComputedTokens) do
    removeBlocksInRange r 0
      (min (cfg.numSkippedBlocks processedComputedTokens) (g.manager.reqToBlocks r).length)
  freeLastState cfg r processedComputedTokens

def cacheCheckpoint (r : CacheRequest) (numTokens : ℕ) (retentionInterval : Option ℕ)
    (position idx : ℕ) : ManagerM n (Option BlockHashWithGroupId) := do
  let g ← get
  let blocks := g.manager.reqToBlocks r.requestId
  check (idx < blocks.length) (.assertionError "0 <= checkpoint_idx < len(blocks)")
  let block ← expect blocks[idx]? indexError
  if retentionInterval = some 0 ∧ numTokens < r.numPromptTokens ∧
      position ≠ r.sharedPrefixBoundary then
    onPool (modify fun s => (s.maybeEvictCachedBlock block).2)
    return none
  else if (g.pool.blocks block).blockHashNumTokens = some position then
    return none
  else
    onPool (cachePartialBlock r.toRequest block position cfg.kvCacheGroupId cfg.blockSize true)

/-- The boundary whose state is published from inside a block: the last hash
boundary of the prompt, one unit lower for EAGLE groups. -/
def latestPromptHashBoundary (hashBlockSize numPromptTokens : ℕ) : ℕ :=
  numPromptTokens / hashBlockSize * hashBlockSize - if cfg.useEagle then hashBlockSize else 0

def publishesTail (hashBlockSize : ℕ) (r : CacheRequest) (numTokens : ℕ) : Bool :=
  cfg.blockSize ≠ hashBlockSize ∧ numTokens % cfg.blockSize ≠ 0 ∧ numTokens % hashBlockSize = 0 ∧
    (numTokens = latestPromptHashBoundary cfg hashBlockSize r.numPromptTokens ∨
      (cfg.fineGrainedPrefixCache ∧ numTokens = r.sharedPrefixBoundary ∧
        r.numComputedTokens < numTokens ∧ numTokens ≤ r.numPromptTokens))

/-- The producer of a partial tail remembers it for the copy of the next
step. -/
def recordProducer (blockIdx : ℕ) (sourceBlock : Fin n) (numTokens : ℕ) : ManagerM n PUnit :=
  modifyManager fun m =>
    { (m.setPartialHit r (some (blockIdx, sourceBlock))).setNumCachedBlock r (some blockIdx) with
      mamba :=
        { m.mamba with
          producerBoundaryStateReqs :=
            Function.update m.mamba.producerBoundaryStateReqs r (some numTokens) } }

def cacheTail (r : CacheRequest) (numTokens : ℕ) : ManagerM n (Option BlockHashWithGroupId) := do
  let g ← get
  let m := g.manager
  if publishesTail cfg g.pool.hashBlockSize r numTokens then
    let blockIdx := numTokens / cfg.blockSize
    match (m.reqToBlocks r.requestId)[blockIdx]? with
    | none => return none
    | some sourceBlock =>
      if (g.pool.blocks sourceBlock).isNull then
        return none
      else
        let partialHash ← onPool (cachePartialBlock r.toRequest sourceBlock numTokens
          cfg.kvCacheGroupId cfg.blockSize false)
        onlyIf partialHash.isSome (recordProducer r.requestId blockIdx sourceBlock numTokens)
        return partialHash
  else
    return none

def cachePartialTailBlock (r : CacheRequest) (numTokens : ℕ) (retentionInterval : Option ℕ) :
    ManagerM n (Option BlockHashWithGroupId) := do
  let g ← get
  match g.manager.mamba.checkpoints r.requestId with
  | some (position, idx) => cacheCheckpoint cfg r numTokens retentionInterval position idx
  | none => cacheTail cfg r numTokens

def recordPublished (idx : ℕ) : ManagerM n PUnit := do
  -- Every block published in this call is noted, and offered to connectors.
  let g ← get
  let m := g.manager
  let block ← expect (m.reqToBlocks r)[idx]? indexError
  match (g.pool.blocks block).isNull, (g.pool.blocks block).blockHash with
  | false, some key =>
    modifyMamba fun s =>
      { s with
        cachedBlocksThisStep := s.cachedBlocksThisStep ++ [key]
        pendingBoundaryStateOffloads := s.pendingBoundaryStateOffloads ++
          [(r, cfg.kvCacheGroupId, block, (idx + 1) * cfg.blockSize)] }
  | _, _ => pure ⟨⟩

def queueAlignedCow (numTokens numCachedBefore numCachedAfter : ℕ) : ManagerM n PUnit := do
  -- A chunk that ends on a block boundary leaves its state in a block that the next step
  -- overwrites, so that block is queued for copy-on-write.
  let g ← get
  let m := g.manager
  let boundaryIdx := numTokens / cfg.blockSize - 1
  onlyIf (0 < numTokens ∧ numTokens % cfg.blockSize = 0 ∧ numCachedBefore ≤ boundaryIdx ∧
      boundaryIdx < numCachedAfter) do
    let block ← expect (m.reqToBlocks r)[boundaryIdx]? indexError
    onlyIf ((g.pool.blocks block).isNull = false ∧ (g.pool.blocks block).blockHash.isSome) do
      modifyMamba fun s =>
        { s with
          alignedStateCowReqs :=
            Function.update s.alignedStateCowReqs r (some (boundaryIdx, block))
          producerBoundaryStateReqs :=
            Function.update s.producerBoundaryStateReqs r (some numTokens) }

def cacheBlocks (r : CacheRequest) (numTokens : ℕ) (retentionInterval : Option ℕ)
    (replayBoundary : ℕ) : ManagerM n PUnit := do
  let g ← get
  let before := (g.manager.numCachedBlock r.requestId).getD 0
  Base.cacheBlocks cfg r numTokens retentionInterval replayBoundary
  let g ← get
  let after := (g.manager.numCachedBlock r.requestId).getD 0
  let partialHash ← cachePartialTailBlock cfg r numTokens retentionInterval
  modifyMamba fun s =>
    { s with cachedBlocksThisStep := s.cachedBlocksThisStep ++ partialHash.toList }
  onlyIf (before < after) do
    forM (List.range' before (after - before)) (recordPublished cfg r.requestId)
    queueAlignedCow cfg r.requestId numTokens before after

/-- The dictionaries of a request are dropped; its published blocks that were
freed early are re-aged, latest boundary first. -/
def popBlocksForFree : ManagerM n (List (Fin n)) := do
  let g ← get
  let tracked := g.manager.mamba.freedBoundaryBlocks r
  modifyMamba fun s =>
    { s with
      allocatedBlockReqs := Function.update s.allocatedBlockReqs r false
      lastStateBlockIdx := Function.update s.lastStateBlockIdx r none
      numRetiredBlocks := Function.update s.numRetiredBlocks r 0
      checkpoints := Function.update s.checkpoints r none
      producerBoundaryStateReqs := Function.update s.producerBoundaryStateReqs r none
      alignedStateCowReqs := Function.update s.alignedStateCowReqs r none
      pendingBoundaryStateOffloads := s.pendingBoundaryStateOffloads.filter (·.1 ≠ r)
      freedBoundaryBlocks := Function.update s.freedBoundaryBlocks r [] }
  onlyIf (tracked ≠ []) do
    onPool (refreshCachedFreeBlocks
      ((tracked.insertionSort fun a b => b.2.2 ≤ a.2.2).map fun entry => (entry.1, entry.2.1)))
  Base.popBlocksForFree r

def newStepStarts : ManagerM n PUnit :=
  modifyMamba fun s => { s with cachedBlocksThisStep := [] }

end Vllm.MambaManager
