import Vllm.Pool

/-!
What the caching operations of the block pool can do. Whatever an operation is
called with and however it ends, its effect is a sequence of four kinds of
step: a key is entered for a block, a block loses all its keys, events are
queued, or everything is cleared (`CacheSteps`). Reference counts and the free
queue change in steps that leave the index alone (`SameIndex`). Invariants of
the pool are proved of these steps only.
-/
namespace Vllm.PoolSteps

open Outcome BlockHashing BlockHashMap FreeBlockQueue Pool Pool.BlockPool

variable {n : ℕ} {s t : BlockPool n}

def enterKey (s : BlockPool n) (key : BlockHashWithGroupId) (b : Fin n) (numTokens : Option ℕ) :
    BlockPool n :=
  let recorded :=
    if (s.blocks b).blockHash = none then
      s.setBlock b { s.blocks b with blockHash := some key, blockHashNumTokens := numTokens }
    else
      s.addSecondaryKey b key
  { recorded with cachedBlockHashToBlock := s.cachedBlockHashToBlock.insert key b }

def clearIndex (s : BlockPool n) : BlockPool n :=
  { s with
    cachedBlockHashToBlock := .empty
    cachedBlockHashesByBlock := fun _ => none
    blocks := fun b => { s.blocks b with blockHash := none, blockHashNumTokens := none } }

/-- One change to the index. Keys are entered for blocks that satisfy `P`. -/
inductive CacheStep (P : BlockPool n → Fin n → Prop) (s : BlockPool n) : BlockPool n → Prop
  | enter (key : BlockHashWithGroupId) (b : Fin n) (numTokens : Option ℕ)
      (hb : P s b)
      (hnew : ¬ ((s.blocks b).blockHash = some key ∨ s.cachedBlockHashToBlock.contain key b)) :
      CacheStep P s (enterKey s key b numTokens)
  | drop (b : Fin n) : CacheStep P s (s.removeCachedBlockHashes b).2
  | emit (events : List KVCacheEvent) : CacheStep P s { s with kvEventQueue := events }
  | clear : CacheStep P s (clearIndex s)

def CacheSteps (P : BlockPool n → Fin n → Prop) : BlockPool n → BlockPool n → Prop :=
  Relation.ReflTransGen (CacheStep P)

instance (P : BlockPool n → Fin n → Prop) : IsPreorder (BlockPool n) (CacheSteps P) where
  refl _ := Relation.ReflTransGen.refl
  trans _ _ _ := Relation.ReflTransGen.trans

variable {P : BlockPool n → Fin n → Prop} {R : BlockPool n → BlockPool n → Prop}
  [IsPreorder (BlockPool n) R]

/-- What every step keeps, any number of steps keeps. -/
theorem CacheSteps.lift (hstep : ∀ s t, CacheStep P s t → R s t)
    (h : CacheSteps P s t) : R s t := by
  induction h with
  | refl => exact refl_of R s
  | tail _ hlast ih => exact trans_of R ih (hstep _ _ hlast)

theorem CacheStep.one (h : CacheStep P s t) : CacheSteps P s t :=
  Relation.ReflTransGen.single h

theorem emitBlockRemovedEvents_steps (s : BlockPool n) (keys : List BlockHashWithGroupId) :
    CacheSteps P s (s.emitBlockRemovedEvents keys) := by
  unfold emitBlockRemovedEvents
  split_ifs
  · exact (CacheStep.emit _).one
  · exact Relation.ReflTransGen.refl

/-- An eviction is a removal with its events. -/
theorem maybeEvictCachedBlock_steps (s : BlockPool n) (b : Fin n) :
    CacheSteps P s (s.maybeEvictCachedBlock b).2 := by
  have hdrop : CacheSteps P s (s.removeCachedBlockHashes b).2 := (CacheStep.drop b).one
  unfold maybeEvictCachedBlock
  simp only
  split_ifs
  · exact hdrop
  · exact hdrop.trans (emitBlockRemovedEvents_steps _ _)

variable (r : Request) (key : BlockHashWithGroupId) {u : BlockPool n} (blocks : List (Fin n))
  (b : Fin n) (numTokens : Option ℕ)

theorem dropBlockHashes_within : Within (CacheSteps P) (dropBlockHashes b) :=
  within_modify fun s =>
    (CacheStep.drop b).one.trans (emitBlockRemovedEvents_steps _ (s.removeCachedBlockHashes b).1)

theorem appendEvent_within (event : KVCacheEvent) :
    Within (CacheSteps P) (appendEvent event : PoolM n PUnit) :=
  within_modify fun _ => (CacheStep.emit _).one

/-- `insertBlockHash` enters the key unless the block has it; it stops, without
a change, on a block that has a token count but no hash. -/
theorem insertBlockHash_spec (s : BlockPool n) : Ensures (insertBlockHash key b numTokens) s
      (fun _ t =>
        ((s.blocks b).blockHash = some key ∨ s.cachedBlockHashToBlock.contain key b) ∧ t = s ∨
        ¬ ((s.blocks b).blockHash = some key ∨ s.cachedBlockHashToBlock.contain key b) ∧
          t = enterKey s key b numTokens)
      (fun _ t => (s.blocks b).blockHash = none ∧ (s.blocks b).blockHashNumTokens ≠ none ∧
        t = s) := by
  simp only [insertBlockHash, ensures_bind, ensures_get, ensures_ite, ensures_pure, recordKey,
    setBlockHash, ensures_check, ensures_set, ensures_modify]
  refine ⟨fun hheld => Or.inl ⟨hheld, trivial⟩, fun hnew => ⟨fun hnone => ?_, fun hsome => ?_⟩⟩
  · refine ⟨fun _ => Or.inr ⟨hnew, ?_⟩, fun hcount => ⟨hnone, fun h => hcount ⟨hnone, h⟩, trivial⟩⟩
    simp [enterKey, hnone, setBlock]
  · exact .inr ⟨hnew, by simp [enterKey, hsome, addSecondaryKey]⟩

/-- An insertion enters one key for an allowed block. -/
theorem insertBlockHash_steps {b : Fin n} (hb : P s b) :
    Ensures (insertBlockHash key b numTokens) s (fun _ t => CacheSteps P s t)
      (fun _ t => CacheSteps P s t) := by
  refine (insertBlockHash_spec key b numTokens s).mono ?_ ?_
  · rintro _ t (⟨-, rfl⟩ | ⟨hnew, rfl⟩)
    · exact refl_of (CacheSteps P) _
    · exact (CacheStep.enter key b numTokens hb hnew).one
  · rintro _ t ⟨-, -, rfl⟩
    exact refl_of (CacheSteps P) _

structure SameCounts (s t : BlockPool n) : Prop where
  queue : t.freeBlockQueue = s.freeBlockQueue
  refCnt : ∀ b, (t.blocks b).refCnt = (s.blocks b).refCnt
  isNull : ∀ b, (t.blocks b).isNull = (s.blocks b).isNull
  nullBlock : t.nullBlock = s.nullBlock
  enableCaching : t.enableCaching = s.enableCaching
  hashBlockSize : t.hashBlockSize = s.hashBlockSize
  enableEvents : t.enableKvCacheEvents = s.enableKvCacheEvents

theorem SameCounts.refl (s : BlockPool n) : SameCounts s s :=
  ⟨rfl, fun _ => rfl, fun _ => rfl, rfl, rfl, rfl, rfl⟩

theorem SameCounts.trans (h : SameCounts s t) (h' : SameCounts t u) : SameCounts s u where
  queue := h'.queue.trans h.queue
  refCnt b := (h'.refCnt b).trans (h.refCnt b)
  isNull b := (h'.isNull b).trans (h.isNull b)
  nullBlock := h'.nullBlock.trans h.nullBlock
  enableCaching := h'.enableCaching.trans h.enableCaching
  hashBlockSize := h'.hashBlockSize.trans h.hashBlockSize
  enableEvents := h'.enableEvents.trans h.enableEvents

instance : IsPreorder (BlockPool n) SameCounts where
  refl := SameCounts.refl
  trans _ _ _ := SameCounts.trans

theorem setBlock_sameCounts (s : BlockPool n) (b : Fin n) (blk : KVCacheBlock)
    (href : blk.refCnt = (s.blocks b).refCnt) (hnull : blk.isNull = (s.blocks b).isNull) :
    SameCounts s (s.setBlock b blk) := by
  refine ⟨rfl, ?_, ?_, rfl, rfl, rfl, rfl⟩
  · intro c
    by_cases hc : c = b
    · simp [setBlock, hc, href]
    · rw [setBlock_blocks_of_ne hc]
  · intro c
    by_cases hc : c = b
    · simp [setBlock, hc, hnull]
    · rw [setBlock_blocks_of_ne hc]

theorem removeCachedBlockHashes_sameCounts (s : BlockPool n) (b : Fin n) :
    SameCounts s (s.removeCachedBlockHashes b).2 := by
  unfold removeCachedBlockHashes
  simp only
  split_ifs
  · exact ⟨rfl, fun _ => rfl, fun _ => rfl, rfl, rfl, rfl, rfl⟩
  · refine SameCounts.trans ?_ (setBlock_sameCounts _ b _ rfl rfl)
    exact ⟨rfl, fun _ => rfl, fun _ => rfl, rfl, rfl, rfl, rfl⟩

theorem enterKey_sameCounts (s : BlockPool n) (key : BlockHashWithGroupId) (b : Fin n)
    (numTokens : Option ℕ) : SameCounts s (enterKey s key b numTokens) := by
  unfold enterKey
  split_ifs
  · have hset := setBlock_sameCounts s b
      { s.blocks b with blockHash := some key, blockHashNumTokens := numTokens } rfl rfl
    exact ⟨rfl, hset.refCnt, hset.isNull, rfl, rfl, rfl, rfl⟩
  · exact ⟨rfl, fun _ => rfl, fun _ => rfl, rfl, rfl, rfl, rfl⟩

theorem CacheStep.sameCounts (h : CacheStep P s t) : SameCounts s t := by
  cases h with
  | enter key b numTokens => exact enterKey_sameCounts s key b numTokens
  | drop b => exact removeCachedBlockHashes_sameCounts s b
  | emit events => exact ⟨rfl, fun _ => rfl, fun _ => rfl, rfl, rfl, rfl, rfl⟩
  | clear => exact ⟨rfl, fun _ => rfl, fun _ => rfl, rfl, rfl, rfl, rfl⟩

/-- No change to the index touches references or the free queue. -/
theorem CacheSteps.sameCounts (h : CacheSteps P s t) : SameCounts s t :=
  h.lift fun _ _ => CacheStep.sameCounts

def NonNull (s : BlockPool n) (b : Fin n) : Prop := (s.blocks b).isNull = false

theorem resolveBlockHashes_within (hashes : List BlockHash) (hashBlockSize blockSize : ℕ) :
    Within R (resolveBlockHashes hashes hashBlockSize blockSize : PoolM n _) :=
  within_ite (within_pure _) ((within_check _ _).bind fun _ => within_pure _)

/-- A block that is cached for a shorter run of tokens loses its hashes. -/
theorem dropShorterHash_within (blk : KVCacheBlock) (b : Fin n) (numHashTokens : ℕ) :
    Within (CacheSteps P) (onlyIf blk.blockHash.isSome do
      check (∃ t ∈ blk.blockHashNumTokens, t < numHashTokens) (.assertionError
        "blk.block_hash_num_tokens is not None and blk.block_hash_num_tokens < num_hash_tokens")
      dropBlockHashes b) :=
  within_onlyIf _ ((within_check _ _).bind fun _ => dropBlockHashes_within b)

/-- The loop enters keys for blocks that are not null. -/
theorem cacheFullLoop_within (newBlockHashes : List BlockHash) (blockMask : Option (List Bool))
    (numCachedBlocks blockSize : ℕ) (kvCacheGroupId : GroupId) (l : List (Fin n × ℕ)) :
    Within (CacheSteps NonNull)
      (cacheFullLoop newBlockHashes blockMask numCachedBlocks blockSize kvCacheGroupId l) := by
  induction l with
  | nil => exact within_pure _
  | cons entry l ih =>
    refine within_get_bind fun s => ?_
    rw [ensures_ite]
    refine ⟨fun _ => ih s, fun hskip => ?_⟩
    have hnull : (s.blocks entry.1).isNull = false := by
      rw [Bool.or_eq_true, not_or] at hskip
      exact Bool.eq_false_iff.mpr hskip.1
    rw [ensures_bind, ensures_expect]
    refine ⟨fun blockHash _ => ?_, fun _ => refl_of (CacheSteps NonNull) s⟩
    refine (dropShorterHash_within _ entry.1 _ s).bind_trans fun _ t hst => ?_
    have hnull' : (t.blocks entry.1).isNull = false := (hst.sameCounts.isNull _).trans hnull
    refine (insertBlockHash_steps _ _ hnull').bind_trans fun _ u _ => ?_
    exact (ih.bind fun _ => within_pure _) u

theorem storedIndices_within (s : BlockPool n) (blocks : List (Fin n))
    (blockMask : Option (List Bool)) (numCachedBlocks : ℕ) (l : List ℕ) :
    Within R (storedIndices s blocks blockMask numCachedBlocks l) := by
  induction l with
  | nil => exact within_pure _
  | cons i l ih =>
    refine (within_expect _ _).bind fun blk => within_ite ih ?_
    exact ih.bind fun _ => within_pure _

theorem parentBlockHash_within (blockHashes : List BlockHash) (numCachedBlocks : ℕ) :
    Within R (parentBlockHash blockHashes numCachedBlocks : PoolM n _) :=
  within_ite (within_pure _) ((within_expect _ _).map _)

theorem emitFullBlocksStored_within (blockHashes newHashes : List BlockHash)
    (numCachedBlocks numFullBlocks blockSize : ℕ) (kvCacheGroupId : GroupId)
    (blockMask : Option (List Bool)) :
    Within (CacheSteps P) (emitFullBlocksStored r blocks blockHashes newHashes numCachedBlocks
      numFullBlocks blockSize kvCacheGroupId blockMask) := by
  refine (parentBlockHash_within _ _).bind fun _ => ?_
  refine within_get.bind fun s => (storedIndices_within s _ _ _ _).bind fun _ => ?_
  exact appendEvent_within _

/-- The whole of `cache_full_blocks` is changes to the index. -/
theorem cacheFullBlocks_within (numCachedBlocks numFullBlocks blockSize : ℕ)
    (kvCacheGroupId : GroupId) (blockMask : Option (List Bool)) :
    Within (CacheSteps NonNull) (cacheFullBlocks r blocks numCachedBlocks numFullBlocks blockSize
      kvCacheGroupId blockMask) := by
  refine within_ite (within_pure _) ?_
  refine (within_check _ _).bind fun _ => within_get.bind fun s => ?_
  refine (resolveBlockHashes_within _ _ _).bind fun _ => ?_
  refine (cacheFullLoop_within _ _ _ _ _ _).bind fun _ => ?_
  exact within_onlyIf _ (emitFullBlocksStored_within _ _ _ _ _ _ _ _ _)

theorem getPartialBlockHash_within (numTokens : ℕ) :
    Within R (getPartialBlockHash r numTokens : PoolM n BlockHash) :=
  within_get.bind fun _ => (within_check _ _).bind fun _ => (within_check _ _).bind fun _ =>
    within_expect _ _

/-- So is `cache_partial_block`. -/
theorem cachePartialBlock_within (numTokens : ℕ) (kvCacheGroupId : GroupId) (blockSize : ℕ)
    (replaceExistingHashes : Bool) :
    Within (CacheSteps NonNull)
      (cachePartialBlock r b numTokens kvCacheGroupId blockSize replaceExistingHashes) := by
  refine within_get_bind fun s => ?_
  rw [ensures_ite]
  refine ⟨fun _ => refl_of (CacheSteps NonNull) s, fun hnull => ?_⟩
  refine (within_check _ _ s).bind_trans fun _ t hst => ?_
  refine (within_check _ _ t).bind_trans fun _ u htu => ?_
  refine (getPartialBlockHash_within r numTokens u).bind_trans fun blockHash v huv => ?_
  refine (within_onlyIf _ (dropBlockHashes_within b) v).bind_trans fun _ w hvw => ?_
  have hsame : SameCounts s w :=
    (hst.sameCounts.trans htu.sameCounts).trans (huv.sameCounts.trans hvw.sameCounts)
  have hnull' : (w.blocks b).isNull = false :=
    (hsame.isNull b).trans (Bool.eq_false_iff.mpr hnull)
  refine (insertBlockHash_steps _ _ hnull').bind_trans fun _ x _ => ?_
  exact ((within_onlyIf _ (appendEvent_within _)).bind fun _ => within_pure _) x

/-- Moved keys are entered for the destination only. -/
theorem moveBlockHashes_within (src dst : Fin n) :
    Within (CacheSteps fun _ b => b = dst) (moveBlockHashes src dst) := by
  refine within_get.bind fun s => ?_
  refine (within_check _ _).bind fun _ => (within_check _ _).bind fun _ => ?_
  refine Within.bind (fun t => (CacheStep.drop src).one) fun keys => ?_
  exact within_forM _ _ fun key _ _ => insertBlockHash_steps key _ rfl

theorem evictBlocks_within (blockIds : List ℕ) :
    Within (CacheSteps P) (evictBlocks blockIds : PoolM n PUnit) := by
  refine within_forM _ _ fun blockId _ => ?_
  split
  · exact within_modify fun s => maybeEvictCachedBlock_steps s _
  · exact within_throw _

theorem resetPrefixCache_within : Within (CacheSteps P) (resetPrefixCache : PoolM n Bool) := by
  refine within_get_bind fun s => ?_
  simp only [ensures_ite, ensures_pure, ensures_bind, ensures_set]
  refine ⟨fun _ => refl_of (CacheSteps P) s, fun _ => ?_⟩
  exact (CacheStep.clear.one).trans (CacheStep.emit (s := clearIndex s) _).one

structure SameIndex (s t : BlockPool n) : Prop where
  blockHash : ∀ b, (t.blocks b).blockHash = (s.blocks b).blockHash
  numTokens : ∀ b, (t.blocks b).blockHashNumTokens = (s.blocks b).blockHashNumTokens
  isNull : ∀ b, (t.blocks b).isNull = (s.blocks b).isNull
  index : t.cachedBlockHashToBlock = s.cachedBlockHashToBlock
  byBlock : t.cachedBlockHashesByBlock = s.cachedBlockHashesByBlock
  nullBlock : t.nullBlock = s.nullBlock
  enableCaching : t.enableCaching = s.enableCaching
  enableEvents : t.enableKvCacheEvents = s.enableKvCacheEvents
  events : t.kvEventQueue = s.kvEventQueue
  hashBlockSize : t.hashBlockSize = s.hashBlockSize

instance : IsPreorder (BlockPool n) SameIndex where
  refl _ := ⟨fun _ => rfl, fun _ => rfl, fun _ => rfl, rfl, rfl, rfl, rfl, rfl, rfl, rfl⟩
  trans _ _ _ h h' :=
    ⟨fun b => (h'.blockHash b).trans (h.blockHash b),
      fun b => (h'.numTokens b).trans (h.numTokens b),
      fun b => (h'.isNull b).trans (h.isNull b), h'.index.trans h.index, h'.byBlock.trans h.byBlock,
      h'.nullBlock.trans h.nullBlock, h'.enableCaching.trans h.enableCaching,
      h'.enableEvents.trans h.enableEvents, h'.events.trans h.events,
      h'.hashBlockSize.trans h.hashBlockSize⟩

theorem setBlock_sameIndex (s : BlockPool n) (b : Fin n) (blk : KVCacheBlock)
    (hhash : blk.blockHash = (s.blocks b).blockHash)
    (htokens : blk.blockHashNumTokens = (s.blocks b).blockHashNumTokens)
    (hnull : blk.isNull = (s.blocks b).isNull) : SameIndex s (s.setBlock b blk) := by
  have hcases : ∀ {β : Type} (f : KVCacheBlock → β), f blk = f (s.blocks b) →
      ∀ c, f ((s.setBlock b blk).blocks c) = f (s.blocks c) := by
    intro β f hf c
    by_cases hc : c = b
    · rw [hc, setBlock_blocks_self, hf]
    · rw [setBlock_blocks_of_ne hc]
  exact ⟨hcases _ hhash, hcases _ htokens, hcases _ hnull, rfl, rfl, rfl, rfl, rfl, rfl, rfl⟩

inductive IndexStep (P : BlockPool n → Fin n → Prop) (s t : BlockPool n) : Prop
  | cache (h : CacheStep P s t)
  | count (h : SameIndex s t)

def IndexSteps (P : BlockPool n → Fin n → Prop) : BlockPool n → BlockPool n → Prop :=
  Relation.ReflTransGen (IndexStep P)

instance (P : BlockPool n → Fin n → Prop) : IsPreorder (BlockPool n) (IndexSteps P) where
  refl _ := Relation.ReflTransGen.refl
  trans _ _ _ := Relation.ReflTransGen.trans

theorem SameIndex.steps (h : SameIndex s t) : IndexSteps P s t :=
  Relation.ReflTransGen.single (.count h)

theorem CacheSteps.indexSteps (h : CacheSteps P s t) : IndexSteps P s t :=
  h.lift (R := IndexSteps P) fun _ _ hstep => Relation.ReflTransGen.single (.cache hstep)

/-- The free queue is no part of the index. -/
theorem onQueue_within {α : Type} (m : QueueM n α) : Within SameIndex (onQueue m) := by
  intro s
  rw [onQueue, ensures_zoom]
  have hsame (q : FreeKVCacheBlockQueue n) : SameIndex s { s with freeBlockQueue := q } :=
    ⟨fun _ => rfl, fun _ => rfl, fun _ => rfl, rfl, rfl, rfl, rfl, rfl, rfl, rfl⟩
  unfold Ensures
  split
  · exact hsame _
  · exact hsame _

theorem addRef_sameIndex (s : BlockPool n) (b : Fin n) (d : ℤ) : SameIndex s (s.addRef b d) :=
  setBlock_sameIndex s b { s.blocks b with refCnt := (s.blocks b).refCnt + d } rfl rfl rfl

theorem touch_within : Within SameIndex (touch blocks) := by
  refine within_forM _ _ fun b _ => within_get.bind fun s => ?_
  refine (within_onlyIf _ (onQueue_within _)).bind fun _ => ?_
  exact within_modify fun t => addRef_sameIndex t b 1

theorem freeLoop_sameIndex (s : BlockPool n) (bs : List (Fin n)) :
    SameIndex s (freeLoop s bs).1 := by
  induction bs generalizing s with
  | nil => exact refl_of SameIndex s
  | cons b bs ih =>
    have hrest := trans_of SameIndex (addRef_sameIndex s b (-1)) (ih (s.addRef b (-1)))
    simp only [freeLoop]
    split_ifs <;> exact hrest

theorem freeBlocks_within (orderedBlocks : List (Fin n)) :
    Within SameIndex (freeBlocks orderedBlocks) := by
  refine within_get_bind fun s => ?_
  refine Ensures.bind_trans (freeLoop_sameIndex s orderedBlocks) fun _ t _ => ?_
  exact ((onQueue_within _).bind fun _ => onQueue_within _) t

theorem refreshCachedFreeBlocks_within (entries : List (Fin n × BlockHashWithGroupId)) :
    Within SameIndex (refreshCachedFreeBlocks entries) := by
  refine within_get.bind fun s => within_onlyIf _ (within_forM _ _ fun entry _ => ?_)
  refine within_get.bind fun t => within_onlyIf _ ?_
  exact (onQueue_within _).bind fun _ => onQueue_within _

theorem claimBlock_within : Within (IndexSteps P) (claimBlock b) := by
  refine Within.bind (within_modify fun s => ?_) fun _ => ?_
  · split_ifs
    · exact (maybeEvictCachedBlock_steps s b).indexSteps
    · exact refl_of (IndexSteps P) s
  · refine within_get_bind fun s => ?_
    simp only [ensures_bind, ensures_check, ensures_set]
    exact ⟨fun _ => (addRef_sameIndex s b 1).steps, fun _ => refl_of (IndexSteps P) s⟩

/-- Handing out blocks evicts them, and touches the index in no other way. -/
theorem getNewBlocks_within (numBlocks : ℕ) :
    Within (IndexSteps P) (getNewBlocks numBlocks : PoolM n _) := by
  refine within_get.bind fun s => (within_check _ _).bind fun _ => ?_
  refine ((onQueue_within _).mono fun _ _ => SameIndex.steps).bind fun ret => ?_
  exact (within_forM _ _ fun b _ => claimBlock_within b).bind fun _ => within_pure _

theorem SameCounts.addRef (h : SameCounts s t) (b : Fin n) (d : ℤ) :
    SameCounts (s.addRef b d) (t.addRef b d) where
  queue := h.queue
  refCnt c := by rw [addRef_refCnt, addRef_refCnt, h.refCnt]
  isNull c := by rw [addRef_isNull, addRef_isNull, h.isNull]
  nullBlock := h.nullBlock
  enableCaching := h.enableCaching
  hashBlockSize := h.hashBlockSize
  enableEvents := h.enableEvents

/-- The reference counts of `t` are those of `s` with `d` added. -/
structure Recounted (d : Fin n → ℤ) (s t : BlockPool n) : Prop where
  refCnt : ∀ b, (t.blocks b).refCnt = (s.blocks b).refCnt + d b
  isNull : ∀ b, (t.blocks b).isNull = (s.blocks b).isNull
  nullBlock : t.nullBlock = s.nullBlock
  enableCaching : t.enableCaching = s.enableCaching

theorem SameCounts.recounted (h : SameCounts s t) : Recounted (fun _ => 0) s t :=
  ⟨fun b => by rw [h.refCnt, Int.add_zero], h.isNull, h.nullBlock, h.enableCaching⟩

/-- Changes of reference counts add up. -/
theorem Recounted.trans {d d' : Fin n → ℤ} (h : Recounted d s t) (h' : Recounted d' t u) :
    Recounted (fun b => d b + d' b) s u where
  refCnt b := by rw [h'.refCnt, h.refCnt, Int.add_assoc]
  isNull b := (h'.isNull b).trans (h.isNull b)
  nullBlock := h'.nullBlock.trans h.nullBlock
  enableCaching := h'.enableCaching.trans h.enableCaching

theorem addRef_recounted (s : BlockPool n) (b : Fin n) (d : ℤ) :
    Recounted (fun c => if c = b then d else 0) s (s.addRef b d) :=
  ⟨fun c => addRef_refCnt s b c d, fun c => addRef_isNull s b c d, rfl, rfl⟩

theorem count_cons_eq (b c : Fin n) (bs : List (Fin n)) :
    ((b :: bs).count c : ℤ) = (if c = b then 1 else 0) + (bs.count c : ℤ) := by
  by_cases h : c = b
  · subst h
    rw [List.count_cons_self, if_pos rfl]
    omega
  · rw [List.count_cons_of_ne (Ne.symm h), if_neg h]
    omega

end Vllm.PoolSteps
