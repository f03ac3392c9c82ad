import Vllm.CachePolicies

/-!
The CPU offload manager. It owns the pool of block ids (a watermark and a free
list), counts idle and write-pending blocks, and moves blocks through their
life: reserved by `prepareStore`, committed or dropped by `completeStore`,
pinned by `prepareLoad` and released by `completeLoad`. Where a block stands
and which one is evicted is the policy's business. Statistics are left out.
-/
namespace Vllm.Offload

open Outcome

inductive LookupResult where
  | hit
  | hitPending
  | miss
  | retry
deriving DecidableEq, Repr

structure OffloadingEvent (κ : Type) where
  keys : List κ
  removed : Bool
deriving DecidableEq, Repr

structure PrepareStoreOutput (κ : Type) where
  keysToStore : List κ
  storeSpec : List ℤ
  evictedKeys : List κ
deriving DecidableEq, Repr

structure CPUOffloadingManager (κ σ : Type) where
  numBlocks : ℕ
  numAllocatedBlocks : ℕ
  freeList : List ℤ
  events : Option (List (OffloadingEvent κ))
  policy : σ
  numEvictableCacheBlocks : ℤ
  numWritePendingBlocks : ℤ
  storeThreshold : ℤ
  maxTrackerSize : ℤ
  counts : Option (OrderedDict κ ℤ)

namespace CPUOffloadingManager

variable {κ σ : Type} [DecidableEq κ] (P : CachePolicy κ σ)

/-- `CPUOffloadingManager(num_blocks, policy, enable_events, store_threshold,
max_tracker_size)`. -/
def init (numBlocks : ℕ) (enableEvents : Bool) (storeThreshold maxTrackerSize : ℤ) :
    CPUOffloadingManager κ σ where
  numBlocks := numBlocks
  numAllocatedBlocks := 0
  freeList := []
  events := if enableEvents then some [] else none
  policy := P.init numBlocks
  numEvictableCacheBlocks := 0
  numWritePendingBlocks := 0
  storeThreshold := storeThreshold
  maxTrackerSize := maxTrackerSize
  counts := if 2 ≤ storeThreshold then some .empty else none

variable (m : CPUOffloadingManager κ σ)

def getNumFreeBlocks : ℤ :=
  m.freeList.length + m.numBlocks - m.numAllocatedBlocks

def allocateBlocks (keys : List κ) :
    EStateM Failure (CPUOffloadingManager κ σ) (List BlockStatus) := do
  -- Fresh ids come first, then ids from the end of the free list.
  let m ← get
  let numFresh := min keys.length (m.numBlocks - m.numAllocatedBlocks)
  let numReused := keys.length - numFresh
  check (numReused ≤ m.freeList.length) (.assertionError "len(self._free_list) >= num_reused")
  let fresh := (List.range' m.numAllocatedBlocks numFresh).map fun (i : ℕ) => BlockStatus.new i
  let reused := (m.freeList.reverse.take numReused).map BlockStatus.new
  set { m with
    numAllocatedBlocks := m.numAllocatedBlocks + numFresh
    freeList := m.freeList.take (m.freeList.length - numReused) }
  return fresh ++ reused

def recordAccess (maxTrackerSize : ℤ) (counts : OrderedDict κ ℤ) (key : κ) :
    Except Failure (OrderedDict κ ℤ) :=
  match counts.get? key with
  | some n => .ok ((counts.moveToEnd key).set key (n + 1))
  | none =>
    if maxTrackerSize ≤ counts.entries.length then
      if counts.entries.length = 0 then .error (.keyError "dictionary is empty")
      else .ok ((counts.dropFirst 1).set key 1)
    else .ok (counts.set key 1)

def withPolicy {α : Type} (op : EStateM Failure σ α) :
    EStateM Failure (CPUOffloadingManager κ σ) α :=
  zoom policy (fun m p => { m with policy := p }) op

def lookup (key : κ) : LookupResult :=
  match P.get m.policy key with
  | none => .miss
  | some block => if ¬ block.isReady then .hitPending else .hit

def pinBlock (key : κ) : EStateM Failure (CPUOffloadingManager κ σ) ℤ := do
  let m ← get
  let block ← expect (P.get m.policy key) (.assertionError "Block not found in cache")
  check block.isReady (.assertionError "Block is not ready for reading")
  onlyIf (block.refCnt = 0) do
    withPolicy (P.markNonEvictable key)
    modify fun m => { m with numEvictableCacheBlocks := m.numEvictableCacheBlocks - 1 }
    let m ← get
    check (0 ≤ m.numEvictableCacheBlocks)
      (.assertionError "self._num_evictable_cache_blocks >= 0")
  modify fun m => { m with policy := P.setRefCnt key (cInt32 (block.refCnt + 1)) m.policy }
  return block.blockId

def prepareLoad (keys : List κ) : EStateM Failure (CPUOffloadingManager κ σ) (List ℤ) :=
  keys.mapM (pinBlock P)

def touch (keys : List κ) (m : CPUOffloadingManager κ σ) : CPUOffloadingManager κ σ :=
  { m with policy := P.touch keys m.policy }

def unpinBlock (key : κ) : EStateM Failure (CPUOffloadingManager κ σ) PUnit := do
  let m ← get
  let block ← expect (P.get m.policy key) (.assertionError "Block not found")
  check (0 < block.refCnt) (.assertionError "Block ref_cnt is already 0")
  let refCnt := cInt32 (block.refCnt - 1)
  set { m with policy := P.setRefCnt key refCnt m.policy }
  onlyIf (refCnt = 0) do
    modify fun m =>
      { m with
        numEvictableCacheBlocks := m.numEvictableCacheBlocks + 1
        policy := P.markEvictable key m.policy }

def completeLoad (keys : List κ) : EStateM Failure (CPUOffloadingManager κ σ) PUnit :=
  keys.forM (unpinBlock P)

/-- The keys that were asked for often enough to be stored; this request counts. -/
def aboveThreshold (keys : List κ) : EStateM Failure (CPUOffloadingManager κ σ) (List κ) := do
  let m ← get
  match m.counts with
  | none => return keys
  | some _ =>
    keys.forM fun key => do
      let m ← get
      let counts ← expect m.counts (.assertionError "self.counts is not None")
      match recordAccess m.maxTrackerSize counts key with
      | .ok counts => set { m with counts := some counts }
      | .error e => throw e
    let m ← get
    let seen := m.counts.getD .empty
    return keys.filter fun key => m.storeThreshold ≤ (seen.get? key).getD 0

/-- Room for `n` blocks. The victims, or `none` when there are not enough. -/
def makeRoom (n : ℕ) (shielded : List κ) :
    EStateM Failure (CPUOffloadingManager κ σ) (Option (List κ)) := do
  let m ← get
  let numBlocksToEvict := (n : ℤ) - m.getNumFreeBlocks
  if numBlocksToEvict ≤ 0 then return some []
  if m.numEvictableCacheBlocks < numBlocksToEvict then return none
  match ← withPolicy (P.evict numBlocksToEvict.toNat shielded) with
  | none => return none
  | some evicted =>
    modify fun m =>
      { m with numEvictableCacheBlocks := m.numEvictableCacheBlocks - evicted.length }
    let m ← get
    check (0 ≤ m.numEvictableCacheBlocks)
      (.assertionError "self._num_evictable_cache_blocks >= 0")
    set { m with freeList := m.freeList ++ (evicted.map Prod.snd).map BlockStatus.blockId }
    return some (evicted.map Prod.fst)

def emit (keys : List κ) (removed : Bool) (m : CPUOffloadingManager κ σ) :
    CPUOffloadingManager κ σ :=
  if keys = [] then m else { m with events := m.events.map (· ++ [⟨keys, removed⟩]) }

omit [DecidableEq κ] in
theorem policy_emit (keys : List κ) (removed : Bool) (m : CPUOffloadingManager κ σ) :
    (m.emit keys removed).policy = m.policy := by
  unfold emit
  split_ifs <;> rfl

omit [DecidableEq κ] in
theorem getNumFreeBlocks_emit (keys : List κ) (removed : Bool) (m : CPUOffloadingManager κ σ) :
    (m.emit keys removed).getNumFreeBlocks = m.getNumFreeBlocks := by
  unfold emit
  split_ifs <;> rfl

def insertBlocks (entries : List (κ × BlockStatus)) (m : CPUOffloadingManager κ σ) :
    CPUOffloadingManager κ σ :=
  { m with policy := entries.foldl (fun p e => P.insert e.1 e.2 p) m.policy }

def prepareStore (keys : List κ) :
    EStateM Failure (CPUOffloadingManager κ σ) (Option (PrepareStoreOutput κ)) := do
  let keys ← aboveThreshold keys
  let m ← get
  let keysToStore := keys.filter fun key => P.get m.policy key = none
  if keysToStore = [] then return some ⟨[], [], []⟩
  -- a key that is already stored must remain in the cache after this call
  match ← makeRoom P keysToStore.length keys with
  | none => return none
  | some toEvict =>
    modify (emit toEvict true)
    let blocks ← allocateBlocks keysToStore
    check (blocks.length = keysToStore.length)
      (.assertionError "Block pool did not allocate the expected number of blocks")
    modify (insertBlocks P (keysToStore.zip blocks))
    modify fun m =>
      { m with numWritePendingBlocks := m.numWritePendingBlocks + keysToStore.length }
    return some ⟨keysToStore, blocks.map BlockStatus.blockId, toEvict⟩

/-- The body of the loop of a successful `complete_store`; returns whether the key was
stored by it. -/
def commitBlock (key : κ) : EStateM Failure (CPUOffloadingManager κ σ) Bool := do
  let m ← get
  match P.get m.policy key with
  | none => return false
  | some block =>
    if block.isReady then return false
    set { m with
      policy := P.markEvictable key (P.setRefCnt key 0 m.policy)
      numWritePendingBlocks := m.numWritePendingBlocks - 1
      numEvictableCacheBlocks := m.numEvictableCacheBlocks + 1 }
    return true

def dropBlock (key : κ) : EStateM Failure (CPUOffloadingManager κ σ) PUnit := do
  let m ← get
  match P.get m.policy key with
  | none => return ⟨⟩
  | some block =>
    onlyIf (¬ block.isReady) do
      set { m with numWritePendingBlocks := m.numWritePendingBlocks - 1 }
      withPolicy (P.remove key)
      modify fun m => { m with freeList := m.freeList ++ [block.blockId] }

def commitBlocks : List κ → EStateM Failure (CPUOffloadingManager κ σ) (List κ)
  | [] => return []
  | key :: keys => do
    let stored ← commitBlock P key
    let rest ← commitBlocks keys
    return if stored then key :: rest else rest

def completeStore (keys : List κ) (success : Bool) :
    EStateM Failure (CPUOffloadingManager κ σ) PUnit := do
  if success then
    let stored ← commitBlocks P keys
    modify (emit stored false)
  else
    keys.forM (dropBlock P)

def resetCache : CPUOffloadingManager κ σ :=
  { m with
    policy := P.clear m.policy
    numEvictableCacheBlocks := 0
    numWritePendingBlocks := 0
    freeList := []
    numAllocatedBlocks := 0 }

end CPUOffloadingManager

end Vllm.Offload
