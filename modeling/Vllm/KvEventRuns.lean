import Vllm.KvEvents

/-!
Runs of the pool with a consumer of its events. As long as keys leave together
(`KeysLeaveTogether`), the fold of all events is the set of cached keys in
every state; two blocks under one key, one of which is evicted, break it.
-/
namespace Vllm.KvEventRuns

open List

open Outcome BlockHashing BlockHashMap FreeBlockQueue Pool Pool.BlockPool PoolSteps PoolFreeList
  PoolRuns PoolIndex KvEvents

variable {n : ℕ} {s : BlockPool n} {held : Fin n → ℕ} {taken : List KVCacheEvent}

/-- Operations of the pool, with those that concern events only. -/
inductive EventOp (n : ℕ) where
  | pool (op : PoolOp n)
  | emitCachedBlockEvents (r : Request) (numCachedBlocks blockSize : ℕ) (kvCacheGroupId : GroupId)
  | takeEvents

def EventOp.exec : EventOp n → PoolM n (List (Fin n) × List KVCacheEvent)
  | .pool op => (fun handed => (handed, [])) <$> op.exec
  | .emitCachedBlockEvents r nc bs g => (fun _ => ([], [])) <$> Pool.emitCachedBlockEvents r nc bs g
  | .takeEvents => (fun events => ([], events)) <$> Pool.takeEvents

def EventOp.released : EventOp n → List (Fin n)
  | .pool op => op.released
  | _ => []

def EventOp.Allowed (held : Fin n → ℕ) (s : BlockPool n) : EventOp n → Prop
  | .pool op => Entitled held s op ∧ Promised s op
  | _ => True

/-- Runs with events on, of operations that return and satisfy `C`. The
consumer has the events that were taken. -/
inductive EventRun [NeZero n] (C : BlockPool n → EventOp n → Prop) :
    BlockPool n → (Fin n → ℕ) → List KVCacheEvent → Prop
  | init {s : BlockPool n} (enableCaching : Bool) (hashBlockSize : ℕ)
      (hinit : initPool n enableCaching hashBlockSize true = .ok s) : EventRun C s (fun _ => 0) []
  | step {s t : BlockPool n} {held : Fin n → ℕ} {taken : List KVCacheEvent}
      (h : EventRun C s held taken) (op : EventOp n) (hop : op.Allowed held s) (hC : C s op)
      (handed : List (Fin n)) (events : List KVCacheEvent)
      (hrun : op.exec.run s = .ok (handed, events) t) :
      EventRun C t (fun b => held b + handed.count b - op.released.count b) (taken ++ events)

/-- No key is taken from a block and left on another one, `cache_full_blocks`
gets distinct blocks, and only cached blocks are announced again. -/
def KeysLeaveTogether (s : BlockPool n) : EventOp n → Prop
  | .pool (.getNewBlocks k) => ∀ free, Represents s.freeBlockQueue free →
    Sole s (fun b => b ∈ free.take k) (fun _ => False)
  | .pool (.evictBlocks ids) => Sole s (fun b => b.val ∈ ids) (fun _ => False)
  | .pool (.cacheFullBlocks r blocks nc nf blockSize g mask) =>
    let new := newlyCached s blocks nc nf mask
    (new.map Prod.fst).Nodup ∧ Sole s (fun b => b ∈ new.map Prod.fst) (fun k => ∃ entry ∈ new, ∃ h,
      (cachedHashes r.blockHashes s.hashBlockSize blockSize)[nc + entry.2]? = some h ∧
      k = makeBlockHashWithGroupId h g)
  | .pool (.cachePartialBlock r b numTokens g _ replace) =>
    PartialDrops s r b numTokens g replace →
      Sole s (fun c => c = b) (PartialStores s r b numTokens g replace)
  | .emitCachedBlockEvents r nc blockSize g =>
    ∀ h ∈ (cachedHashes r.blockHashes s.hashBlockSize blockSize).take nc,
      ∃ b, makeBlockHashWithGroupId h g ∈ keysOf s b
  | _ => True

structure EventInv (s : BlockPool n) (held : Fin n → ℕ) (taken : List KVCacheEvent) : Prop where
  pool : PoolInv s held
  index : IndexInv s
  on : s.enableKvCacheEvents = true
  made : ∀ b, ∀ k ∈ keysOf s b, Made k
  synced : Synced taken s

theorem enableEvents_steps {P : BlockPool n → Fin n → Prop} {t : BlockPool n}
    (h : IndexSteps P s t) : t.enableKvCacheEvents = s.enableKvCacheEvents := by
  induction h with
  | refl => rfl
  | tail _ hlast ih =>
    cases hlast with
    | cache h => exact h.sameCounts.enableEvents.trans ih
    | count h => exact h.enableEvents.trans ih

section
variable (h : EventInv s held taken)
include h

/-- Every pool operation but the reset, as one change that keys survive. -/
theorem PoolOp.exec_change (op : PoolOp n) (hop : Promised s op)
    (hC : KeysLeaveTogether s (.pool op)) (hreset : op ≠ .resetPrefixCache) :
    Ensures op.exec s
      (fun _ t => ∃ D N, Change taken D N s t ∧ (∀ k, N k → Made k) ∧ Sole s D N)
      (fun _ _ => True) := by
  have hcount {t : BlockPool n} (hst : SameIndex s t) :
      ∃ D N, Change taken D N s t ∧ (∀ k, N k → Made k) ∧ Sole s D N :=
    ⟨_, _, (effect_of_sameIndex taken h.index h.on hst).change_of_none, fun _ => False.elim,
      fun _ => False.elim⟩
  cases op with
  | getNewBlocks k =>
    obtain ⟨free, hfree⟩ := h.pool.free
    refine (getNewBlocks_effect taken h.index h.on hfree k).imp ?_
    exact fun _ t ht => ⟨_, _, ht.change_of_none, fun _ => False.elim, hC free hfree.represents⟩
  | touch bs =>
    rw [PoolOp.exec, ensures_map]
    exact (touch_within bs s).weaken (fun _ _ => hcount)
  | freeBlocks bs =>
    rw [PoolOp.exec, ensures_map]
    exact (freeBlocks_within bs s).weaken (fun _ _ => hcount)
  | cacheFullBlocks r blocks nc nf bs g mask =>
    rw [PoolOp.exec, ensures_map]
    refine (cacheFullBlocks_change taken h.index h.on hop r blocks nc nf bs g mask hC.1).imp ?_
    refine fun _ t ht => ⟨_, _, ht, ?_, hC.2⟩
    rintro k ⟨_, _, hash, -, rfl⟩
    exact made_make hash g
  | cachePartialBlock r b nt g bs replace =>
    rw [PoolOp.exec, ensures_map]
    refine (cachePartialBlock_change taken h.index h.on hop r b nt g bs replace).imp ?_
    refine fun _ t ht => ⟨_, _, ht, ?_, ?_⟩
    · rintro k ⟨-, hk, -⟩
      obtain ⟨hash, -, rfl⟩ := Option.map_eq_some_iff.mp hk
      exact made_make hash g
    · rintro c ⟨hdrops, rfl⟩ k hk
      refine (hC hdrops c rfl k hk).imp id fun hsole d hd => ⟨hdrops, hsole d hd⟩
  | moveBlockHashes src dst =>
    rw [PoolOp.exec, ensures_map]
    refine (moveBlockHashes_change taken h.index hop.1 src dst hop.2).imp ?_
    exact fun _ t ht => ⟨_, _, ht, fun _ => False.elim, fun _ => False.elim⟩
  | evictBlocks ids =>
    rw [PoolOp.exec, ensures_map]
    refine (evictBlocks_effect taken h.index h.on ids).imp ?_
    exact fun _ t ht => ⟨_, _, ht.change_of_none, fun _ => False.elim, hC⟩
  | refreshCachedFreeBlocks entries =>
    rw [PoolOp.exec, ensures_map]
    exact (refreshCachedFreeBlocks_within entries s).weaken (fun _ _ => hcount)
  | resetPrefixCache => exact absurd rfl hreset

omit h in
/-- A reset takes every key or none, and the consumer is told. -/
theorem resetPrefixCache_synced
    (hon : s.enableKvCacheEvents = true) (hs : Synced taken s)
    (hmade : ∀ b, ∀ k ∈ keysOf s b, Made k) :
    Ensures resetPrefixCache s
      (fun _ t => Synced taken t ∧ ∀ b, ∀ k ∈ keysOf t b, Made k) (fun _ _ => True) := by
  simp only [resetPrefixCache, ensures_bind, ensures_get, ensures_ite, ensures_pure, ensures_set]
  refine ⟨fun _ => ⟨hs, hmade⟩, fun _ => ⟨fun hash g => ?_, fun b k hk => ?_⟩⟩
  · simp [known, foldEvents, hon, ← append_assoc, foldl_append, foldEvent, keysOf,
      secondaryKeys]
  · simp [keysOf, secondaryKeys] at hk

/-- Every operation of the pool leaves the consumer in step if keys leave their blocks together. -/
theorem PoolOp.exec_synced (op : PoolOp n) (hop : Promised s op)
    (hC : KeysLeaveTogether s (.pool op)) :
    Ensures op.exec s (fun _ t => Synced taken t ∧ ∀ b, ∀ k ∈ keysOf t b, Made k)
      (fun _ _ => True) := by
  by_cases hreset : op = .resetPrefixCache
  · subst hreset
    rw [PoolOp.exec, ensures_map]
    exact resetPrefixCache_synced h.on h.synced h.made
  · refine (exec_change h op hop hC hreset).imp ?_
    rintro _ t ⟨D, N, hchange, hN, hsole⟩
    exact ⟨hchange.synced h.synced h.made hN hsole, hchange.made h.made hN⟩

theorem EventInv.of_events {taken' : List KVCacheEvent} {queue : List KVCacheEvent}
    (hsynced : Synced taken' { s with kvEventQueue := queue }) :
    EventInv { s with kvEventQueue := queue } held taken' where
  pool := by
    obtain ⟨free, hfree⟩ := h.pool.free
    have hsame : SameCounts s { s with kvEventQueue := queue } :=
      ⟨rfl, fun _ => rfl, fun _ => rfl, rfl, rfl, rfl, rfl⟩
    exact ⟨⟨free, hfree.of_sameCounts hsame⟩, h.pool.stray, h.pool.ledger⟩
  index := ⟨h.index.index_iff, h.index.keys_nodup, h.index.no_secondary, h.index.null_iff,
    h.index.null_keys, h.index.wellFormed, h.index.disabled⟩
  on := h.on
  made := h.made
  synced := hsynced

/-- Announcing blocks that carry their keys tells the consumer nothing new. -/
theorem emitCachedBlockEvents_spec (r : Request) (nc blockSize : ℕ) (g : GroupId)
    (hC : KeysLeaveTogether s (.emitCachedBlockEvents r nc blockSize g)) :
    Ensures (emitCachedBlockEvents r nc blockSize g) s (fun _ t => EventInv t held taken)
      (fun _ _ => True) := by
  simp only [emitCachedBlockEvents, ensures_bind, ensures_get, ensures_ite, ensures_pure]
  refine ⟨fun _ => h, fun _ => ?_⟩
  refine (resolveBlockHashes_spec _ _ _ s).weaken ?_
  rintro hashes t ⟨rfl, rfl⟩
  simp only [ensures_check, appendEvent, ensures_modify]
  refine ⟨fun _ => h.of_events fun hash g' => ?_, fun _ => trivial⟩
  have hannounce : Announces (buildBlockStoredEvent r
      ((cachedHashes r.blockHashes t.hashBlockSize blockSize).take nc) none 0 (nc * blockSize)
      blockSize g (storedExtraKeys r blockSize (List.range nc) (.idx 0)))
      ((cachedHashes r.blockHashes t.hashBlockSize blockSize).take nc) g := fun _ => rfl
  rw [known_append taken _ hannounce, h.synced]
  refine or_iff_left_of_imp ?_
  rintro ⟨k, ⟨hash', hin, rfl⟩, heq⟩
  rw [pairOf_make] at heq
  cases heq
  exact hC hash hin

/-- One operation keeps what runs keep. -/
theorem EventOp.exec_spec (op : EventOp n) (hop : op.Allowed held s) (hC : KeysLeaveTogether s op) :
    Ensures op.exec s
      (fun out t => EventInv t (fun b => held b + out.1.count b - op.released.count b)
        (taken ++ out.2)) (fun _ _ => True) := by
  cases op with
  | pool op =>
    rw [exec, ensures_map]
    have hpool := op.exec_spec h.pool hop.1
    have hsynced := PoolOp.exec_synced h op hop.2 hC
    refine ((hpool.and (op.exec_within s)).and hsynced).weaken ?_
    rintro handed t ⟨⟨hpool', hsteps⟩, hsynced', hmade⟩
    have hindex := (indexInv_steps hsteps h.index
      fun _ _ hu hcaching hnull hb => hop.2.enters hu hcaching hnull hb).1
    rw [append_nil]
    exact ⟨hpool', hindex, (enableEvents_steps hsteps).trans h.on, hmade, hsynced'⟩
  | emitCachedBlockEvents r nc bs g =>
    rw [exec, ensures_map]
    refine (emitCachedBlockEvents_spec h r nc bs g hC).imp ?_
    intro _ t ht
    simpa [released] using ht
  | takeEvents =>
    simp only [exec, ensures_map, Pool.takeEvents, ensures_bind, ensures_get, ensures_ite,
      ensures_set, ensures_pure, released, count_nil]
    refine ⟨fun _ => h.of_events fun hash g => ?_, fun hoff => absurd h.on hoff⟩
    rw [known, append_nil]
    exact h.synced hash g
end

theorem EventRun.eventInv [NeZero n]
    (h : EventRun KeysLeaveTogether s held taken) :
    EventInv s held taken := by
  induction h with
  | init enableCaching hashBlockSize hinit =>
    have hnew := newPool_of_initPool hinit
    have hkeys := keysOf_newPool hnew
    have hrun := (Run.init enableCaching hashBlockSize true hinit).poolInv
    have hindex := (Reachable.init enableCaching hashBlockSize true hinit).indexInv
    refine ⟨hrun, hindex, hnew.events.1, fun b k hk => ?_, fun hash g => ?_⟩
    · rw [hkeys] at hk
      exact (not_mem_nil hk).elim
    · simp [known, foldEvents, hnew.events.2, hkeys]
  | step _ op hop hC handed events hrun ih => exact (op.exec_spec ih hop hC).of_ok hrun

/-- Whenever keys leave together, the fold of the events is the set of keys
for which `get_one_block` returns a block. -/
theorem fold_events_eq_index [NeZero n] {s : BlockPool n} {held : Fin n → ℕ}
    {taken : List KVCacheEvent} (h : EventRun KeysLeaveTogether s held taken) (hash : BlockHash)
    (g : GroupId) :
    (hash, g) ∈ foldEvents (taken ++ s.kvEventQueue) ↔
      (s.cachedBlockHashToBlock.getOneBlock (makeBlockHashWithGroupId hash g)).isSome := by
  have hinv := h.eventInv
  have hsynced : (hash, g) ∈ foldEvents (taken ++ s.kvEventQueue) ↔ _ := hinv.synced hash g
  rw [hsynced, BlockHashToBlockMap.getOneBlock_eq, isSome_head?]
  constructor
  · rintro ⟨b, hb⟩
    exact ne_nil_of_mem ((hinv.index.index_iff _ b).mpr hb)
  · intro hne
    obtain ⟨b, hb⟩ := exists_mem_of_ne_nil _ hne
    exact ⟨b, (hinv.index.index_iff _ b).mp hb⟩

/-- One request caches a block, whose key the consumer then knows. -/
theorem fold_events_one_block : ∃ (s : BlockPool 2) (held : Fin 2 → ℕ) (taken : List KVCacheEvent),
    EventRun KeysLeaveTogether s held taken ∧ ([1], 0) ∈ foldEvents (taken ++ s.kvEventQueue) ∧
    ∀ hash g, (hash, g) ∈ foldEvents (taken ++ s.kvEventQueue) ↔
      (s.cachedBlockHashToBlock.getOneBlock (makeBlockHashWithGroupId hash g)).isSome := by
  have hinit := EventRun.init (n := 2) (C := KeysLeaveTogether) true 1 rfl
  have hnokeys : ∀ s : BlockPool 2, (∀ b, keysOf s b = []) → ∀ D N, Sole s D N := by
    intro s hs D N b _ k hk
    rw [hs] at hk
    exact (not_mem_nil hk).elim
  have htaken := hinit.step (.pool (.getNewBlocks 1)) ⟨fun b _ => Nat.zero_le _, trivial⟩
    (fun _ _ => hnokeys _ (by decide) _ _) [1] [] rfl
  have hcached := htaken.step (.pool (.cacheFullBlocks oneBlockRequest [1] 0 1 1 0 none))
    ⟨fun b _ => Nat.zero_le _, rfl⟩ ⟨by decide, hnokeys _ (by decide) _ _⟩ [] [] rfl
  exact ⟨_, _, _, hcached, .inr ⟨mem_singleton.mpr rfl, rfl⟩, fold_events_eq_index hcached⟩

/-- Two blocks under one key: when one of them is evicted, the consumer drops
the key, which the other still serves. -/
theorem fold_events_duplicate_evicted :
    ∃ (s : BlockPool 3) (held : Fin 3 → ℕ) (taken : List KVCacheEvent),
    EventRun (fun _ _ => True) s held taken ∧ ([1], 0) ∉ foldEvents (taken ++ s.kvEventQueue) ∧
    s.cachedBlockHashToBlock.getOneBlock (makeBlockHashWithGroupId [1] 0) = some 2 := by
  have hinit := EventRun.init (n := 3) (C := fun _ _ => True) true 1 rfl
  have htaken := hinit.step (.pool (.getNewBlocks 2)) ⟨fun b _ => Nat.zero_le _, trivial⟩ trivial
    [1, 2] [] rfl
  have hfirst := htaken.step (.pool (.cacheFullBlocks oneBlockRequest [1] 0 1 1 0 none))
    ⟨fun b _ => Nat.zero_le _, rfl⟩ trivial [] [] rfl
  have hsecond := hfirst.step (.pool (.cacheFullBlocks oneBlockRequest [2] 0 1 1 0 none))
    ⟨fun b _ => Nat.zero_le _, rfl⟩ trivial [] [] rfl
  have hevicted := hsecond.step (.pool (.evictBlocks [1])) ⟨fun b _ => Nat.zero_le _, trivial⟩
    trivial [] [] rfl
  exact ⟨_, _, _, hevicted, fun hin => hin.2 ⟨mem_singleton.mpr rfl, rfl⟩, rfl⟩

end Vllm.KvEventRuns
