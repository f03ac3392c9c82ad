import Vllm.CacheManagers

/-!
The prefix-cache lookups of the single-type managers. A lookup is given the
block hashes of a request and a bound on the hit, and returns the blocks of the
hit with its length. Several groups of layers with one specification are looked
up together, so a table position holds a row of blocks, one per group. Full
attention scans from the left, sliding windows and Mamba search from the right.
-/
namespace Vllm.CacheHit

open Outcome BlockHashing BlockHashMap Pool CacheManagers

variable {n : ℕ}

abbrev Row (n : ℕ) := List (Fin n)

inductive LookupKind where
  | fullAttention
  | slidingWindow (window : ℕ+)
  | mamba
deriving DecidableEq, Repr

def LookupKind.supportsFineGrainedHashLookup : LookupKind → Bool
  | .fullAttention => true
  | .slidingWindow _ => false
  | .mamba => true

structure SpecGroup where
  kind : LookupKind
  blockSize : ℕ+
  groupIds : List GroupId
  groupIds_ne_nil : groupIds ≠ []
  useEagle : Bool

def SpecGroup.single (kind : LookupKind) (blockSize : ℕ+) (groupId : GroupId) (useEagle : Bool) :
    SpecGroup :=
  { kind, blockSize, groupIds := [groupId], groupIds_ne_nil := by simp, useEagle }

def fineGrained (blockSize alignmentTokens : ℕ) : Bool :=
  alignmentTokens < blockSize ∧ blockSize % alignmentTokens = 0

/-- `resolve_block_hashes`: the hashes at the granularity of the cache blocks,
or the finer hashes themselves for a fine-grained lookup. -/
def resolveBlockHashes (blockHashes : List BlockHash) (hashBlockSize blockSize : ℕ) (fine : Bool) :
    Except Failure (List BlockHash) :=
  if blockSize = hashBlockSize ∨ fine then
    .ok blockHashes
  else if blockSize % hashBlockSize = 0 then
    .ok (mergedHashes blockHashes (blockSize / hashBlockSize))
  else
    .error (.assertionError "block_size % hash_block_size == 0")

def probeAt (pool : BlockPool n) (groupIds : List GroupId) (hashes : List BlockHash) (i : ℕ) :
    Option (Row n) :=
  hashes[i]?.bind fun hash => pool.getCachedBlock hash groupIds

def cachedRun (probe : ℕ → Option (Row n)) (i : ℕ) : ℕ → List (Row n)
  | 0 => []
  | k + 1 =>
    match probe i with
    | none => []
    | some row => row :: cachedRun probe (i + 1) k

/-- The search from the right, down to index `first`: the highest index below
the bound that is cached and not left out. -/
def searchDown (probe : ℕ → Option (Row n)) (skip : ℕ → Bool) (first : ℕ) : ℕ → Option (ℕ × Row n)
  | 0 => none
  | i + 1 =>
    if i < first then
      none
    else
      match probe i with
      | none => searchDown probe skip first i
      | some row => if skip i then searchDown probe skip first i else some (i, row)

/-- The first block that is not full may still be cached up to one of its inner
hash boundaries. -/
def extendPartial (probe : ℕ → Option (Row n)) (blockSize alignmentTokens maxLength numHashes : ℕ)
    (full : List (Row n)) : List (Row n) × ℕ :=
  let scaleFactor := blockSize / alignmentTokens
  let firstPartialIdx := full.length * scaleFactor
  let maxPartialIdx :=
    min (firstPartialIdx + scaleFactor - 1) (min (maxLength / alignmentTokens) numHashes)
  match searchDown probe (fun _ => false) firstPartialIdx maxPartialIdx with
  | none => (full, full.length * blockSize)
  | some (fineIdx, row) => (full ++ [row], (fineIdx + 1) * alignmentTokens)

/-- The two phases of the full-attention scan: full blocks from the left, then
the boundaries inside the next block. -/
def scanFull (pool : BlockPool n) (blockSize : ℕ) (groupIds : List GroupId)
    (hashes : List BlockHash) (maxLength alignmentTokens : ℕ) (fine : Bool) : List (Row n) × ℕ :=
  let fullHashes := if fine then mergedHashes hashes (blockSize / alignmentTokens) else hashes
  let full := cachedRun (probeAt pool groupIds fullHashes) 0 (maxLength / blockSize)
  if fine then
    extendPartial (probeAt pool groupIds hashes) blockSize alignmentTokens maxLength hashes.length
      full
  else
    (full, full.length * blockSize)

def trimHit (blockSize alignmentTokens : ℕ) (dropEagleBlock : Bool) (found : List (Row n) × ℕ) :
    List (Row n) × ℕ :=
  -- EAGLE needs the last tokens recomputed: one hash unit is dropped in a fine-grained lookup,
  -- else one block. The rest is rounded down to the alignment.
  let hitLength :=
    if dropEagleBlock ∧ 0 < found.2 then found.2 - min alignmentTokens blockSize else found.2
  let hitLength := hitLength - hitLength % alignmentTokens
  (found.1.take (cdiv hitLength blockSize), hitLength)

def findFullAttention (pool : BlockPool n) (blockSize : ℕ) (groupIds : List GroupId)
    (blockHashes : List BlockHash) (maxLength : ℕ) (dropEagleBlock : Bool)
    (alignmentTokens : ℕ) : Except Failure (List (Row n) × ℕ) := do
  let fine := fineGrained blockSize alignmentTokens
  let hashes ← resolveBlockHashes blockHashes pool.hashBlockSize blockSize fine
  return trimHit blockSize alignmentTokens dropEagleBlock
    (scanFull pool blockSize groupIds hashes maxLength alignmentTokens fine)

/-- The loop of the sliding-window lookup, backward from index `i`: the table
found so far and the length of the current run of cached blocks. The run must
end on an aligned position once the block dropped for EAGLE is gone. -/
def slidingLoop (probe : ℕ → Option (Row n)) (need blockSize alignmentTokens : ℕ)
    (dropEagleBlock : Bool) : ℕ → List (Row n) → ℕ → List (Row n) × ℕ × Bool
  | 0, computed, numContiguous => (computed, numContiguous, false)
  | i + 1, computed, numContiguous =>
    match probe i with
    | none => slidingLoop probe need blockSize alignmentTokens dropEagleBlock i computed 0
    | some row =>
      let postPopBlocks := if dropEagleBlock then i else i + 1
      if numContiguous = 0 ∧ blockSize ≠ alignmentTokens ∧
          postPopBlocks * blockSize % alignmentTokens ≠ 0 then
        slidingLoop probe need blockSize alignmentTokens dropEagleBlock i computed numContiguous
      else if need ≤ numContiguous + 1 then
        ((computed.set i row).take (i + (numContiguous + 1)), numContiguous + 1, true)
      else
        slidingLoop probe need blockSize alignmentTokens dropEagleBlock i (computed.set i row)
          (numContiguous + 1)

def alignedCount (blockSize alignmentTokens : ℕ) : ℕ → ℕ
  -- The number of blocks left when the last ones are popped up to an aligned position.
  | 0 => 0
  | k + 1 =>
    if blockSize ≠ alignmentTokens ∧ (k + 1) * blockSize % alignmentTokens ≠ 0 then
      alignedCount blockSize alignmentTokens k
    else
      k + 1

def slidingCount (blockSize alignmentTokens : ℕ) (dropEagleBlock : Bool) (numBlocks : ℕ)
    (matchFound : Bool) : ℕ :=
  -- What is left of the table after the loop: a hit shorter than the window is aligned, the block
  -- for EAGLE is popped and the rest is aligned again.
  let k := if matchFound then numBlocks else alignedCount blockSize alignmentTokens numBlocks
  if dropEagleBlock ∧ k ≠ 0 then alignedCount blockSize alignmentTokens (k - 1) else k

def findSlidingWindow (pool : BlockPool n) (window blockSize : ℕ) (groupIds : List GroupId)
    (blockHashes : List BlockHash) (maxLength : ℕ) (dropEagleBlock : Bool)
    (alignmentTokens : ℕ) : Except Failure (List (Row n) × ℕ) := do
  if alignmentTokens % blockSize ≠ 0 then
    .error (.assertionError
      "SlidingWindowManager does not support fine-grained (partial) cache hits")
  else
    let hashes ← resolveBlockHashes blockHashes pool.hashBlockSize blockSize false
    let need := contiguousBlocksForHit window blockSize dropEagleBlock
    let maxNumBlocks := maxLength / blockSize
    if hashes.length < maxNumBlocks then
      .error indexError
    else
      let nullRow := groupIds.map fun _ => pool.nullBlock
      let (computed, numContiguous, matchFound) :=
        slidingLoop (probeAt pool groupIds hashes) need blockSize alignmentTokens dropEagleBlock
          maxNumBlocks (List.replicate maxNumBlocks nullRow) 0
      let computed := if matchFound then computed else computed.take numContiguous
      let rows := computed.take
        (slidingCount blockSize alignmentTokens dropEagleBlock computed.length matchFound)
      return (rows, rows.length * blockSize)

/-- The last cached state behind null rows; `rowIdx` is its table position. -/
def lastState (probe : ℕ → Option (Row n)) (skip : ℕ → Bool) (bound : ℕ) (nullRow : Row n)
    (rowIdx : ℕ → ℕ) (tokens : ℕ) : List (Row n) × ℕ :=
  match searchDown probe skip 0 bound with
  | none => ([], 0)
  | some (i, row) => (List.replicate (rowIdx i) nullRow ++ [row], (i + 1) * tokens)

/-- `MambaManager.find_longest_cache_hit`. It drops no block for EAGLE, draft
models have no Mamba layers. -/
def findMamba (pool : BlockPool n) (blockSize : ℕ) (groupIds : List GroupId)
    (blockHashes : List BlockHash) (maxLength alignmentTokens : ℕ) :
    Except Failure (List (Row n) × ℕ) := do
  let fine := fineGrained blockSize alignmentTokens
  let hashes ← resolveBlockHashes blockHashes pool.hashBlockSize blockSize fine
  let nullRow := groupIds.map fun _ => pool.nullBlock
  if fine then
    return lastState (probeAt pool groupIds hashes) (fun _ => false)
      (min (maxLength / alignmentTokens) hashes.length) nullRow
      (fun fineIdx => fineIdx / (blockSize / alignmentTokens)) alignmentTokens
  else if hashes.length < maxLength / blockSize then
    .error indexError
  else
    return lastState (probeAt pool groupIds hashes)
      (fun i => blockSize ≠ alignmentTokens ∧ (i + 1) * blockSize % alignmentTokens ≠ 0)
      (maxLength / blockSize) nullRow id blockSize

def findLongestCacheHit (pool : BlockPool n) (g : SpecGroup) (blockHashes : List BlockHash)
    (maxLength : ℕ) (dropEagleBlock : Bool) (alignmentTokens : ℕ) :
    Except Failure (List (Row n) × ℕ) :=
  match g.kind with
  | .fullAttention =>
    findFullAttention pool g.blockSize g.groupIds blockHashes maxLength dropEagleBlock
      alignmentTokens
  | .slidingWindow window =>
    findSlidingWindow pool window g.blockSize g.groupIds blockHashes maxLength dropEagleBlock
      alignmentTokens
  | .mamba => findMamba pool g.blockSize g.groupIds blockHashes maxLength alignmentTokens

end Vllm.CacheHit
