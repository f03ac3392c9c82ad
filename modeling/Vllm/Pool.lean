import Mathlib.Data.List.FinRange
import Vllm.BlockHashMap
import Vllm.FreeBlockQueue

/-!
The pool of KV cache blocks: reference counts, the free queue, the prefix-cache
index and the stream of KV cache events. Operations that can raise are
computations that stop with a `Failure` and keep the state reached so far;
the others are functions of the state. The metrics collector and logging are
left out. Event hashes are bytes (no conversion to integers).
-/
namespace Vllm.Pool

open Outcome BlockHashing BlockHashMap FreeBlockQueue

structure KVCacheBlock where
  refCnt : ℤ
  blockHash : Option BlockHashWithGroupId
  blockHashNumTokens : Option ℕ
  isNull : Bool
deriving DecidableEq, Repr

inductive KVCacheEvent where
  | blockStored (blockHashes : List BlockHash) (parentBlockHash : Option BlockHash)
      (tokenIds : List ℕ) (blockSize : ℕ) (loraId : Option ℕ) (medium : String)
      (loraName : Option String) (extraKeys : Option (List (Option (List ExtraKey))))
      (groupIdx : GroupId)
  | blockRemoved (blockHashes : List BlockHash) (medium : String) (groupIdx : GroupId)
  | allBlocksCleared
deriving DecidableEq, Repr

def mediumGpu : String := "GPU"

/-- `n` is the number of GPU blocks. The secondary keys of a block are a Python
set, here a list without an order that matters. -/
structure BlockPool (n : ℕ) where
  enableCaching : Bool
  hashBlockSize : ℕ
  blocks : Fin n → KVCacheBlock
  freeBlockQueue : FreeKVCacheBlockQueue n
  cachedBlockHashToBlock : BlockHashToBlockMap n
  cachedBlockHashesByBlock : Fin n → Option (List BlockHashWithGroupId)
  nullBlock : Fin n
  enableKvCacheEvents : Bool
  kvEventQueue : List KVCacheEvent

abbrev PoolM (n : ℕ) := EStateM Failure (BlockPool n)

variable {n : ℕ}

namespace BlockPool

variable (s : BlockPool n)

def setBlock (b : Fin n) (blk : KVCacheBlock) : BlockPool n :=
  { s with blocks := Function.update s.blocks b blk }

def resetHash (b : Fin n) : BlockPool n :=
  s.setBlock b { s.blocks b with blockHash := none, blockHashNumTokens := none }

def addRef (b : Fin n) (d : ℤ) : BlockPool n :=
  s.setBlock b { s.blocks b with refCnt := (s.blocks b).refCnt + d }

variable (s : BlockPool n) (b c : Fin n) (d : ℤ)

theorem setBlock_blocks (blk : KVCacheBlock) :
    (s.setBlock b blk).blocks c = if c = b then blk else s.blocks c := by
  simp [setBlock, Function.update_apply]

@[simp]
theorem setBlock_blocks_self (b : Fin n) (blk : KVCacheBlock) :
    (s.setBlock b blk).blocks b = blk := by simp [setBlock]

theorem setBlock_blocks_of_ne {b c : Fin n} (h : c ≠ b) (s : BlockPool n) (blk : KVCacheBlock) :
    (s.setBlock b blk).blocks c = s.blocks c := by simp [setBlock, h]

/-- References are added to one block. -/
theorem addRef_refCnt :
    ((s.addRef b d).blocks c).refCnt = (s.blocks c).refCnt + if c = b then d else 0 := by
  by_cases h : c = b <;> simp [addRef, setBlock_blocks, h]

@[simp]
theorem addRef_isNull : ((s.addRef b d).blocks c).isNull = (s.blocks c).isNull := by
  by_cases h : c = b <;> simp [addRef, setBlock_blocks, h]

@[simp]
theorem addRef_blockHash : ((s.addRef b d).blocks c).blockHash = (s.blocks c).blockHash := by
  by_cases h : c = b <;> simp [addRef, setBlock_blocks, h]

def secondaryKeys (s : BlockPool n) (b : Fin n) : List BlockHashWithGroupId :=
  (s.cachedBlockHashesByBlock b).getD []

def addSecondaryKey (s : BlockPool n) (b : Fin n) (key : BlockHashWithGroupId) : BlockPool n :=
  let keys := if key ∈ s.secondaryKeys b then s.secondaryKeys b else s.secondaryKeys b ++ [key]
  { s with cachedBlockHashesByBlock := Function.update s.cachedBlockHashesByBlock b (some keys) }

def getNumFreeBlocks (s : BlockPool n) : ℕ := s.freeBlockQueue.numFreeBlocks

def popKeys (m : BlockHashToBlockMap n) (b : Fin n) :
    List BlockHashWithGroupId → List BlockHashWithGroupId × BlockHashToBlockMap n
  | [] => ([], m)
  | key :: keys =>
    let (popped, m) := m.pop key b
    let (removed, m) := popKeys m b keys
    (if popped.isSome then key :: removed else removed, m)

def removeCachedBlockHashes (s : BlockPool n) (b : Fin n) :
    List BlockHashWithGroupId × BlockPool n :=
  let blockHashes := (s.blocks b).blockHash.toList ++ s.secondaryKeys b
  let s := { s with
    cachedBlockHashesByBlock := Function.update s.cachedBlockHashesByBlock b none }
  if blockHashes = [] then
    ([], s)
  else
    let (removed, m) := popKeys s.cachedBlockHashToBlock b blockHashes
    (removed, { s with cachedBlockHashToBlock := m }.resetHash b)

def blockRemovedEvent (key : BlockHashWithGroupId) : KVCacheEvent :=
  .blockRemoved [getBlockHash key] mediumGpu (getGroupId key)

def emitBlockRemovedEvents (s : BlockPool n) (keys : List BlockHashWithGroupId) : BlockPool n :=
  if s.enableKvCacheEvents then
    { s with kvEventQueue := s.kvEventQueue ++ keys.map blockRemovedEvent }
  else
    s

def maybeEvictCachedBlock (s : BlockPool n) (b : Fin n) : Bool × BlockPool n :=
  let (evictedHashes, s) := s.removeCachedBlockHashes b
  if evictedHashes = [] then (false, s) else (true, s.emitBlockRemovedEvents evictedHashes)

def getCachedBlock (s : BlockPool n) (blockHash : BlockHash) (kvCacheGroupIds : List GroupId) :
    Option (List (Fin n)) :=
  kvCacheGroupIds.mapM fun groupId =>
    s.cachedBlockHashToBlock.getOneBlock (makeBlockHashWithGroupId blockHash groupId)

def isBlockWritable (s : BlockPool n) (b : Fin n) : Bool :=
  !(s.blocks b).isNull && (s.blocks b).refCnt == 1 && (s.blocks b).blockHash.isNone

end BlockPool

def onQueue {α : Type} (m : QueueM n α) : PoolM n α :=
  zoom (fun s => s.freeBlockQueue) (fun s q => { s with freeBlockQueue := q }) m

def initPool (n : ℕ) [NeZero n] (enableCaching : Bool) (hashBlockSize : ℕ)
    (enableKvCacheEvents : Bool) : Except Failure (BlockPool n) :=
  -- Block 0 is taken off the free queue as null block.
  let start : BlockPool n :=
    { enableCaching, hashBlockSize, enableKvCacheEvents
      blocks := fun _ => ⟨0, none, none, false⟩
      freeBlockQueue := FreeBlockQueue.init (List.finRange n)
      cachedBlockHashToBlock := .empty
      cachedBlockHashesByBlock := fun _ => none
      nullBlock := 0
      kvEventQueue := [] }
  match (onQueue popleft).run start with
  | .ok nullBlock s =>
    .ok ({ s with nullBlock }.setBlock nullBlock { s.blocks nullBlock with isNull := true })
  | .error e _ => .error e

def setBlockHash (b : Fin n) (key : BlockHashWithGroupId) (numTokens : Option ℕ) :
    PoolM n PUnit := do
  let s ← get
  check ((s.blocks b).blockHash = none ∧ (s.blocks b).blockHashNumTokens = none)
    (.assertionError "The block already has a hash. This should not happen.")
  set (s.setBlock b { s.blocks b with blockHash := some key, blockHashNumTokens := numTokens })

def recordKey (key : BlockHashWithGroupId) (b : Fin n) (numTokens : Option ℕ) : PoolM n PUnit := do
  -- Record a key on the block itself: as its hash, or as a secondary key.
  let s ← get
  if (s.blocks b).blockHash = none then
    setBlockHash b key numTokens
  else
    set (s.addSecondaryKey b key)

def insertBlockHash (key : BlockHashWithGroupId) (b : Fin n) (numTokens : Option ℕ) :
    PoolM n PUnit := do
  let s ← get
  if (s.blocks b).blockHash = some key ∨ s.cachedBlockHashToBlock.contain key b then
    return
  recordKey key b numTokens
  modify fun s =>
    { s with cachedBlockHashToBlock := s.cachedBlockHashToBlock.insert key b }

def dropBlockHashes (b : Fin n) : PoolM n PUnit :=
  modify fun s =>
    let (removedHashes, s) := s.removeCachedBlockHashes b
    s.emitBlockRemovedEvents removedHashes

def moveBlockHashes (srcBlock dstBlock : Fin n) : PoolM n PUnit := do
  let s ← get
  check ((s.blocks dstBlock).blockHash = none)
    (.assertionError "dst_block.block_hash is None")
  check (s.cachedBlockHashesByBlock dstBlock = none)
    (.assertionError "dst_block.block_id not in self.cached_block_hashes_by_block")
  let numTokens := (s.blocks srcBlock).blockHashNumTokens
  let keys ← modifyGet fun s => s.removeCachedBlockHashes srcBlock
  forM keys fun key => insertBlockHash key dstBlock numTokens

def claimBlock (b : Fin n) : PoolM n PUnit := do
  -- A popped block is evicted from the prefix cache and referenced.
  modify fun s => if s.enableCaching then (s.maybeEvictCachedBlock b).2 else s
  let s ← get
  check ((s.blocks b).refCnt = 0) (.assertionError "block.ref_cnt == 0")
  set (s.addRef b 1)

def getNewBlocks (numBlocks : ℕ) : PoolM n (List (Fin n)) := do
  let s ← get
  check (numBlocks ≤ s.getNumFreeBlocks)
    (.valueError s!"Cannot get {numBlocks} free blocks from the pool")
  let ret ← onQueue (popleftN numBlocks)
  forM ret claimBlock
  return ret

def touchBlock (b : Fin n) : PoolM n PUnit := do
  let s ← get
  onlyIf ((s.blocks b).refCnt = 0 ∧ (s.blocks b).isNull = false) (onQueue (remove b))
  modify fun s => s.addRef b 1

def touch (blocks : List (Fin n)) : PoolM n PUnit := forM blocks touchBlock

/-- The loop of `free_blocks`: references are given back, and the blocks whose
count reached zero are split into those to reuse first and those to reuse
last. -/
def freeLoop (s : BlockPool n) : List (Fin n) → BlockPool n × List (Fin n) × List (Fin n)
  | [] => (s, [], [])
  | b :: bs =>
    let s := s.addRef b (-1)
    let blk := s.blocks b
    let (t, evictFirst, evictLast) := freeLoop s bs
    if blk.refCnt = 0 ∧ blk.isNull = false then
      if blk.blockHash = none ∨ s.enableCaching = false then
        (t, b :: evictFirst, evictLast)
      else
        (t, evictFirst, b :: evictLast)
    else
      (t, evictFirst, evictLast)

def freeBlocks (orderedBlocks : List (Fin n)) : PoolM n PUnit := do
  let s ← get
  let (t, blocksToEvictFirst, blocksToEvictLast) := freeLoop s orderedBlocks
  set t
  onQueue (prependN blocksToEvictFirst)
  onQueue (appendN blocksToEvictLast)

def refreshBlock (entry : Fin n × BlockHashWithGroupId) : PoolM n PUnit := do
  -- A block that was referenced or recycled since it was freed is skipped.
  let s ← get
  onlyIf ((s.blocks entry.1).refCnt = 0 ∧ (s.blocks entry.1).isNull = false ∧
      (s.blocks entry.1).blockHash = some entry.2) do
    onQueue (remove entry.1)
    onQueue (append entry.1)

def refreshCachedFreeBlocks (entries : List (Fin n × BlockHashWithGroupId)) : PoolM n PUnit := do
  let s ← get
  onlyIf s.enableCaching (forM entries refreshBlock)

def evictBlocks (blockIds : List ℕ) : PoolM n PUnit :=
  forM blockIds fun blockId =>
    if h : blockId < n then
      modify fun s => (s.maybeEvictCachedBlock ⟨blockId, h⟩).2
    else
      throw (.assertionError (s!"Invalid block_id {blockId} >= {n}. " ++
        "This indicates a bug in the KV connector - workers should " ++
        "only report block IDs that were allocated by the scheduler."))

def resetPrefixCache : PoolM n Bool := do
  -- Only the null block may be in use.
  let s ← get
  let numUsedBlocks : ℤ := (n : ℤ) - s.getNumFreeBlocks
  if numUsedBlocks ≠ 1 then
    return false
  set { s with
    cachedBlockHashToBlock := .empty
    cachedBlockHashesByBlock := fun _ => none
    blocks := fun b => { s.blocks b with blockHash := none, blockHashNumTokens := none }
    kvEventQueue :=
      if s.enableKvCacheEvents then s.kvEventQueue ++ [KVCacheEvent.allBlocksCleared]
        else s.kvEventQueue }
  return true

/-- The last hash computed inside each run of `scaleFactor` hashes. -/
def mergedHashes (blockHashes : List BlockHash) (scaleFactor : ℕ) : List BlockHash :=
  (List.range (blockHashes.length / scaleFactor)).filterMap fun i =>
    blockHashes[(i + 1) * scaleFactor - 1]?

def resolveBlockHashes (blockHashes : List BlockHash) (hashBlockSize blockSize : ℕ) :
    PoolM n (List BlockHash) := do
  if blockSize = hashBlockSize then
    return blockHashes
  check (blockSize % hashBlockSize = 0) (.assertionError "block_size % hash_block_size == 0")
  return mergedHashes blockHashes (blockSize / hashBlockSize)

def indexError : Failure := .indexError "list index out of range"

def maskedOut (blockMask : Option (List Bool)) (i : ℕ) : Bool :=
  match blockMask with
  | none => false
  | some mask => mask[i]? = some false

def cacheFullLoop (newBlockHashes : List BlockHash) (blockMask : Option (List Bool))
    (numCachedBlocks blockSize : ℕ) (kvCacheGroupId : GroupId) :
    List (Fin n × ℕ) → PoolM n (List BlockHash)
  | [] => return []
  | (blk, i) :: rest => do
    let s ← get
    if (s.blocks blk).isNull || maskedOut blockMask i then
      cacheFullLoop newBlockHashes blockMask numCachedBlocks blockSize kvCacheGroupId rest
    else
      let blockHash ← expect newBlockHashes[i]? indexError
      let numHashTokens := (numCachedBlocks + i + 1) * blockSize
      onlyIf (s.blocks blk).blockHash.isSome do
        check (∃ t ∈ (s.blocks blk).blockHashNumTokens, t < numHashTokens) (.assertionError
          "blk.block_hash_num_tokens is not None and blk.block_hash_num_tokens < num_hash_tokens")
        dropBlockHashes blk
      insertBlockHash (makeBlockHashWithGroupId blockHash kvCacheGroupId) blk (some numHashTokens)
      let hashes ←
        cacheFullLoop newBlockHashes blockMask numCachedBlocks blockSize kvCacheGroupId rest
      return blockHash :: hashes

def storedExtraKeys (r : Request) (blockSize : ℕ) : List ℕ → MmIdx → List (Option (List ExtraKey))
  | [], _ => []
  | i :: rest, mmIdx =>
    let (extraKeys, mmIdx) :=
      generateBlockHashExtraKeys r (i * blockSize) (i * blockSize + blockSize) mmIdx
    extraKeys :: storedExtraKeys r blockSize rest mmIdx

variable (r : Request) (s : BlockPool n)

def buildBlockStoredEvent (blockHashes : List BlockHash) (parentBlockHash : Option BlockHash)
    (startTokenIdx endTokenIdx blockSize : ℕ) (kvCacheGroupId : GroupId)
    (extraKeys : List (Option (List ExtraKey))) : KVCacheEvent :=
  .blockStored blockHashes parentBlockHash (r.slice startTokenIdx endTokenIdx) blockSize
    (r.loraRequest.map (·.adapterId)) mediumGpu (r.loraRequest.map (·.loraName))
    (if extraKeys = [] then none else some extraKeys) kvCacheGroupId

def appendEvent (event : KVCacheEvent) : PoolM n PUnit :=
  modify fun s => { s with kvEventQueue := s.kvEventQueue ++ [event] }

def storedIndices (s : BlockPool n) (blocks : List (Fin n)) (blockMask : Option (List Bool))
    (numCachedBlocks : ℕ) : List ℕ → PoolM n (List ℕ)
  | [] => return []
  | i :: rest => do
    let blk ← expect blocks[i]? indexError
    if (s.blocks blk).isNull || maskedOut blockMask (i - numCachedBlocks) then
      storedIndices s blocks blockMask numCachedBlocks rest
    else
      let indices ← storedIndices s blocks blockMask numCachedBlocks rest
      return i :: indices

def parentBlockHash (blockHashes : List BlockHash) (numCachedBlocks : ℕ) :
    PoolM n (Option BlockHash) :=
  if numCachedBlocks = 0 then
    pure none
  else
    some <$> expect blockHashes[numCachedBlocks - 1]? indexError

def emitFullBlocksStored (blocks : List (Fin n)) (blockHashes newHashes : List BlockHash)
    (numCachedBlocks numFullBlocks blockSize : ℕ) (kvCacheGroupId : GroupId)
    (blockMask : Option (List Bool)) : PoolM n PUnit := do
  let parentHash ← parentBlockHash blockHashes numCachedBlocks
  let s ← get
  let indices ← storedIndices s blocks blockMask numCachedBlocks
    (List.range' numCachedBlocks (numFullBlocks - numCachedBlocks))
  appendEvent (buildBlockStoredEvent r newHashes parentHash (numCachedBlocks * blockSize)
    (numFullBlocks * blockSize) blockSize kvCacheGroupId
    (storedExtraKeys r blockSize indices (.idx 0)))

def cacheFullBlocks (blocks : List (Fin n)) (numCachedBlocks numFullBlocks : ℕ) (blockSize : ℕ)
    (kvCacheGroupId : GroupId) (blockMask : Option (List Bool)) : PoolM n PUnit := do
  if numCachedBlocks ≥ numFullBlocks then
    return
  let newFullBlocks := (blocks.take numFullBlocks).drop numCachedBlocks
  check (∀ mask ∈ blockMask, mask.length = newFullBlocks.length) (.assertionError
    "block_mask is None or len(block_mask) == len(new_full_blocks)")
  let s ← get
  let blockHashes ← resolveBlockHashes r.blockHashes s.hashBlockSize blockSize
  let newHashes ← cacheFullLoop (blockHashes.drop numCachedBlocks) blockMask numCachedBlocks
    blockSize kvCacheGroupId newFullBlocks.zipIdx
  onlyIf s.enableKvCacheEvents (emitFullBlocksStored r blocks blockHashes newHashes
    numCachedBlocks numFullBlocks blockSize kvCacheGroupId blockMask)

def emitCachedBlockEvents (numCachedBlocks blockSize : ℕ) (kvCacheGroupId : GroupId) :
    PoolM n PUnit := do
  let s ← get
  if s.enableKvCacheEvents = false ∨ numCachedBlocks = 0 then
    return
  let blockHashes ← resolveBlockHashes r.blockHashes s.hashBlockSize blockSize
  check (numCachedBlocks ≤ blockHashes.length) indexError
  appendEvent (buildBlockStoredEvent r (blockHashes.take numCachedBlocks) none 0
    (numCachedBlocks * blockSize) blockSize kvCacheGroupId
    (storedExtraKeys r blockSize (List.range numCachedBlocks) (.idx 0)))

def getPartialBlockHash (numTokens : ℕ) : PoolM n BlockHash := do
  let s ← get
  check (numTokens % s.hashBlockSize = 0) (.assertionError "num_tokens % self.hash_block_size == 0")
  let numHashBlocks := numTokens / s.hashBlockSize
  check (0 < numHashBlocks ∧ numHashBlocks ≤ r.blockHashes.length)
    (.assertionError "0 < num_hash_blocks <= len(request.block_hashes)")
  expect r.blockHashes[numHashBlocks - 1]? indexError

def partialStoredEvent (blockHash : BlockHash) (numTokens hashBlockSize : ℕ)
    (kvCacheGroupId : GroupId) : KVCacheEvent :=
  let numHashBlocks := numTokens / hashBlockSize
  let parentHash := if 1 < numHashBlocks then r.blockHashes[numHashBlocks - 2]? else none
  let blockStart := (numHashBlocks - 1) * hashBlockSize
  let mmIdx := if 0 < blockStart then MmIdx.last else MmIdx.idx 0
  .blockStored [blockHash] parentHash (r.slice blockStart numTokens) (numTokens - blockStart)
    (r.loraRequest.map (·.adapterId)) mediumGpu (r.loraRequest.map (·.loraName))
    (some [(generateBlockHashExtraKeys r blockStart numTokens mmIdx).1]) kvCacheGroupId

def alreadyCached (b : Fin n) (key : BlockHashWithGroupId) : Bool :=
  (s.blocks b).blockHash = some key ∨ s.cachedBlockHashToBlock.contain key b

def replacesHashes (b : Fin n) (key : BlockHashWithGroupId) (numHashTokens : ℕ)
    (replaceExistingHashes : Bool) : Bool :=
  -- Whether `cache_partial_block` first drops the keys the block has: always when replacing, else
  -- when they stand for a shorter prefix.
  replaceExistingHashes ∨ (alreadyCached s b key = false ∧ (s.blocks b).blockHash.isSome ∧
    ∃ t ∈ (s.blocks b).blockHashNumTokens, t < numHashTokens)

def cachePartialBlock (b : Fin n) (numTokens : ℕ) (kvCacheGroupId : GroupId) (blockSize : ℕ)
    (replaceExistingHashes : Bool) : PoolM n (Option BlockHashWithGroupId) := do
  let s ← get
  if (s.blocks b).isNull then
    return none
  check (blockSize % s.hashBlockSize = 0) (.assertionError "block_size % self.hash_block_size == 0")
  check (replaceExistingHashes ∨ (s.hashBlockSize < blockSize ∧ numTokens % blockSize ≠ 0))
    (.assertionError ("replace_existing_hashes or " ++
      "(block_size > self.hash_block_size and num_tokens % block_size != 0)"))
  let blockHash ← getPartialBlockHash r numTokens
  let numHashTokens := numTokens / s.hashBlockSize * s.hashBlockSize
  let key := makeBlockHashWithGroupId blockHash kvCacheGroupId
  onlyIf (replacesHashes s b key numHashTokens replaceExistingHashes) (dropBlockHashes b)
  insertBlockHash key b (some numHashTokens)
  onlyIf (s.enableKvCacheEvents ∧ (replaceExistingHashes ∨ alreadyCached s b key = false))
    (appendEvent (partialStoredEvent r blockHash numTokens s.hashBlockSize kvCacheGroupId))
  return some key

def takeEvents : PoolM n (List KVCacheEvent) := do
  let s ← get
  if s.enableKvCacheEvents then
    set { s with kvEventQueue := [] }
    return s.kvEventQueue
  else
    return []

end Vllm.Pool
