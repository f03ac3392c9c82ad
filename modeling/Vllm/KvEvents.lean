import Vllm.PoolIndex

/-!
The stream of KV cache events against the index. A consumer folds the events
into a set of (block hash, group) pairs. Events are emitted per block while the
index is per key, so the fold follows the index only as long as no key is
removed from one block and left on another. Runs are judged step by step: what
an operation drops, what it enters, and what it announces (`Effect`).
-/
namespace Vllm.KvEvents

open List

open Outcome BlockHashing BlockHashMap FreeBlockQueue Pool Pool.BlockPool PoolSteps PoolFreeList
  PoolRuns PoolIndex

variable {n : ℕ}

/-- The consumer: stored hashes are added, removed ones deleted. -/
def foldEvent (known : Set (BlockHash × GroupId)) : KVCacheEvent → Set (BlockHash × GroupId)
  | .blockStored blockHashes _ _ _ _ _ _ _ groupIdx =>
    known ∪ {p | p.1 ∈ blockHashes ∧ p.2 = groupIdx}
  | .blockRemoved blockHashes _ groupIdx => known \ {p | p.1 ∈ blockHashes ∧ p.2 = groupIdx}
  | .allBlocksCleared => ∅

def foldEvents (events : List KVCacheEvent) : Set (BlockHash × GroupId) :=
  events.foldl foldEvent ∅

/-- What the consumer knows once it has the queued events too. -/
def known (taken : List KVCacheEvent) (s : BlockPool n) : Set (BlockHash × GroupId) :=
  foldEvents (taken ++ s.kvEventQueue)

def pairOf (key : BlockHashWithGroupId) : BlockHash × GroupId := (getBlockHash key, getGroupId key)

def Made (key : BlockHashWithGroupId) : Prop :=
  makeBlockHashWithGroupId (pairOf key).1 (pairOf key).2 = key

theorem made_make (h : BlockHash) (g : GroupId) : Made (makeBlockHashWithGroupId h g) := by
  simp [Made, pairOf]

@[simp]
theorem pairOf_make (h : BlockHash) (g : GroupId) :
    pairOf (makeBlockHashWithGroupId h g) = (h, g) := by
  simp [pairOf]

/-- A key as the pool builds it can be told from the pair it is announced as. -/
theorem Made.pairOf_eq_iff {key : BlockHashWithGroupId} (hkey : Made key) (h : BlockHash)
    (g : GroupId) : (h, g) = pairOf key ↔ makeBlockHashWithGroupId h g = key := by
  constructor
  · intro heq
    rw [← hkey, ← heq]
  · rintro rfl
    exact (pairOf_make h g).symm

theorem mem_foldl_removed (keys : List BlockHashWithGroupId) (start : Set (BlockHash × GroupId))
    (p : BlockHash × GroupId) :
    p ∈ (keys.map blockRemovedEvent).foldl foldEvent start ↔
      p ∈ start ∧ ∀ k ∈ keys, p ≠ pairOf k := by
  induction keys generalizing start with
  | nil => simp
  | cons key keys ih =>
    have hone : p ∈ foldEvent start (blockRemovedEvent key) ↔ p ∈ start ∧ p ≠ pairOf key := by
      rw [Ne, pairOf, Prod.ext_iff]
      simp [blockRemovedEvent, foldEvent]
    rw [map_cons, foldl_cons, ih, hone, forall_mem_cons, and_assoc]

/-- Every key recorded on a block is found in the index. -/
theorem popKeys_fst {m : BlockHashToBlockMap n} (hwf : m.WellFormed) (b : Fin n)
    {keys : List BlockHashWithGroupId} (hnd : keys.Nodup) (hin : ∀ k ∈ keys, b ∈ m.blocksAt k) :
    (popKeys m b keys).1 = keys := by
  induction keys generalizing m with
  | nil => rfl
  | cons key keys ih =>
    obtain ⟨hout, hnd⟩ := nodup_cons.mp hnd
    have hpop : (m.pop key b).1.isSome := by
      rw [m.pop_fst, if_pos (hin key mem_cons_self)]
      rfl
    have hrest := ih (m.wellFormed_pop hwf key b) hnd fun k hk => by
      rw [m.mem_blocksAt_pop hwf]
      exact ⟨hin k (mem_cons_of_mem key hk), fun heq => hout (heq.1 ▸ hk)⟩
    simp only [popKeys, if_pos hpop, hrest]

/-- All keys of a block are found in the index when they are removed. -/
theorem removeCachedBlockHashes_fst {s : BlockPool n} (h : IndexInv s) (b : Fin n) :
    (s.removeCachedBlockHashes b).1 = keysOf s b := by
  have hpop := popKeys_fst h.wellFormed b (h.keys_nodup b) fun k hk => (h.index_iff k b).mpr hk
  unfold removeCachedBlockHashes
  simp only
  split_ifs with hkeys
  · exact hkeys.symm
  · exact hpop

/-- What part of an operation does to blocks and consumer: the blocks in `D`
lose their keys, which are announced as removed, and then carry the keys `N`;
other blocks keep theirs. -/
structure Effect (taken : List KVCacheEvent) (D : Fin n → Prop) (N : BlockHashWithGroupId → Prop)
    (s t : BlockPool n) : Prop where
  inv : IndexInv t
  on : t.enableKvCacheEvents = true
  entered : ∀ k, N k ↔ ∃ b, D b ∧ k ∈ keysOf t b
  kept : ∀ b, ¬ D b → keysOf t b = keysOf s b
  known : ∀ p, p ∈ known taken t ↔ p ∈ known taken s ∧ ∀ b, D b → ∀ k ∈ keysOf s b, p ≠ pairOf k

section
variable {taken : List KVCacheEvent} {D D' : Fin n → Prop} {N N' : BlockHashWithGroupId → Prop}
  {s t u : BlockPool n}

theorem Effect.congr (h : Effect taken D N s t) (hD : ∀ b, D' b ↔ D b) (hN : ∀ k, N' k ↔ N k) :
    Effect taken D' N' s t := by
  obtain rfl : D' = D := funext fun b => propext (hD b)
  obtain rfl : N' = N := funext fun k => propext (hN k)
  exact h

/-- Two parts in a row; a block both touch has no keys in between. -/
theorem Effect.trans (h : Effect taken D N s t) (h' : Effect taken D' N' t u)
    (hover : ∀ b, D b → D' b → keysOf t b = []) :
    Effect taken (fun b => D b ∨ D' b) (fun k => N k ∨ N' k) s u where
  inv := h'.inv
  on := h'.on
  entered k := by
    rw [h.entered, h'.entered]
    constructor
    · rintro (⟨b, hb, hk⟩ | ⟨b, hb, hk⟩)
      · by_cases hb' : D' b
        · rw [hover b hb hb'] at hk
          exact (not_mem_nil hk).elim
        · exact ⟨b, .inl hb, by rwa [h'.kept b hb']⟩
      · exact ⟨b, .inr hb, hk⟩
    · rintro ⟨b, hb, hk⟩
      by_cases hb' : D' b
      · exact .inr ⟨b, hb', hk⟩
      · rw [h'.kept b hb'] at hk
        exact .inl ⟨b, hb.resolve_right hb', hk⟩
  kept b hb := by
    rw [not_or] at hb
    rw [h'.kept b hb.2, h.kept b hb.1]
  known p := by
    rw [h'.known, h.known]
    constructor
    · rintro ⟨⟨hp, hD⟩, hD'⟩
      refine ⟨hp, fun b hb k hk => ?_⟩
      by_cases hbD : D b
      · exact hD b hbD k hk
      · exact hD' b (hb.resolve_left hbD) k (by rwa [h.kept b hbD])
    · rintro ⟨hp, hall⟩
      refine ⟨⟨hp, fun b hb => hall b (.inl hb)⟩, fun b hb k hk => ?_⟩
      by_cases hbD : D b
      · rw [hover b hbD hb] at hk
        exact (not_mem_nil hk).elim
      · rw [h.kept b hbD] at hk
        exact hall b (.inr hb) k hk

theorem Effect.add_nil (h : Effect taken D N s t) {b : Fin n} (hs : keysOf s b = [])
    (ht : keysOf t b = []) : Effect taken (fun c => D c ∨ c = b) N s t where
  inv := h.inv
  on := h.on
  entered k := by
    rw [h.entered]
    refine exists_congr fun c => ?_
    constructor
    · exact fun ⟨hc, hk⟩ => ⟨.inl hc, hk⟩
    · rintro ⟨hc | rfl, hk⟩
      · exact ⟨hc, hk⟩
      · rw [ht] at hk
        exact (not_mem_nil hk).elim
  kept c hc := h.kept c fun hD => hc (.inl hD)
  known p := by
    rw [h.known]
    refine and_congr_right fun _ => forall_congr' fun c => ?_
    constructor
    · rintro hall (hc | rfl) k hk
      · exact hall hc k hk
      · rw [hs] at hk
        exact (not_mem_nil hk).elim
    · exact fun hall hc => hall (.inl hc)

/-- What a whole operation does: the blocks in `D` lose their keys, the keys
`N` are carried and announced, the others stay where they are. -/
structure Change (taken : List KVCacheEvent) (D : Fin n → Prop) (N : BlockHashWithGroupId → Prop)
    (s u : BlockPool n) : Prop where
  carried : ∀ k, (∃ b, k ∈ keysOf u b) ↔ N k ∨ ∃ b, ¬ D b ∧ k ∈ keysOf s b
  known : ∀ p, p ∈ known taken u ↔
    (p ∈ known taken s ∧ ∀ b, D b → ∀ k ∈ keysOf s b, p ≠ pairOf k) ∨ ∃ k, N k ∧ p = pairOf k

/-- The keys that were entered are announced at the end. -/
theorem Effect.change (h : Effect taken D N s t) (hkeys : keysOf u = keysOf t)
    (hknown : ∀ p, p ∈ KvEvents.known taken u ↔
      p ∈ KvEvents.known taken t ∨ ∃ k, N k ∧ p = pairOf k) : Change taken D N s u where
  carried k := by
    rw [hkeys, h.entered]
    constructor
    · rintro ⟨b, hk⟩
      by_cases hb : D b
      · exact .inl ⟨b, hb, hk⟩
      · exact .inr ⟨b, hb, h.kept b hb ▸ hk⟩
    · rintro (⟨b, -, hk⟩ | ⟨b, hb, hk⟩)
      · exact ⟨b, hk⟩
      · exact ⟨b, (h.kept b hb).symm ▸ hk⟩
  known p := by rw [hknown, h.known]

theorem Effect.change_of_none (h : Effect taken D (fun _ => False) s t) :
    Change taken D (fun _ => False) s t :=
  h.change rfl (by simp)

theorem Change.congr (h : Change taken D N s u) (hD : ∀ b, D' b ↔ D b) (hN : ∀ k, N' k ↔ N k) :
    Change taken D' N' s u := by
  obtain rfl : D' = D := funext fun b => propext (hD b)
  obtain rfl : N' = N := funext fun k => propext (hN k)
  exact h

/-- The consumer knows exactly the keys that blocks carry. -/
def Synced (taken : List KVCacheEvent) (s : BlockPool n) : Prop :=
  ∀ h g, (h, g) ∈ KvEvents.known taken s ↔ ∃ b, makeBlockHashWithGroupId h g ∈ keysOf s b

/-- A key that blocks in `D` lose is announced anew, or no other block carries
it. -/
def Sole (s : BlockPool n) (D : Fin n → Prop) (N : BlockHashWithGroupId → Prop) : Prop :=
  ∀ b, D b → ∀ k ∈ keysOf s b, N k ∨ ∀ c, k ∈ keysOf s c → D c

theorem Change.made (h : Change taken D N s u) (hmade : ∀ b, ∀ k ∈ keysOf s b, Made k)
    (hN : ∀ k, N k → Made k) : ∀ b, ∀ k ∈ keysOf u b, Made k := by
  intro b k hk
  rcases (h.carried k).mp ⟨b, hk⟩ with hnew | ⟨c, -, hold⟩
  · exact hN k hnew
  · exact hmade c k hold

/-- A change announced in full keeps the consumer in step if no other block carries a key that
leaves. -/
theorem Change.synced (h : Change taken D N s u) (hs : Synced taken s)
    (hmade : ∀ b, ∀ k ∈ keysOf s b, Made k) (hN : ∀ k, N k → Made k) (hsole : Sole s D N) :
    Synced taken u := by
  intro hash g
  have hstored : (∃ k, N k ∧ (hash, g) = pairOf k) ↔ N (makeBlockHashWithGroupId hash g) := by
    constructor
    · rintro ⟨k, hk, heq⟩
      exact ((hN k hk).pairOf_eq_iff hash g).mp heq ▸ hk
    · exact fun hk => ⟨_, hk, (pairOf_make hash g).symm⟩
  rw [h.known, h.carried, hs, hstored, or_comm]
  refine or_congr_right' fun hnot => ?_
  constructor
  · rintro ⟨⟨b, hb⟩, hkept⟩
    refine ⟨b, fun hD => hkept b hD _ hb ?_, hb⟩
    exact (pairOf_make hash g).symm
  · rintro ⟨b, hD, hb⟩
    refine ⟨⟨b, hb⟩, fun c hc k hk heq => ?_⟩
    have hkey := ((hmade c k hk).pairOf_eq_iff hash g).mp heq
    rw [← hkey] at hk
    exact hD ((hsole c hc _ hk).resolve_left hnot b hb)
end

variable (taken : List KVCacheEvent) {D : Fin n → Prop} {s t u : BlockPool n} (e : KVCacheEvent)
  (r : Request) {b : Fin n} {i : ℕ}

section
variable (hs : IndexInv s)
include hs

section
variable (hon : s.enableKvCacheEvents = true)
include hon

theorem effect_of_sameIndex (hst : SameIndex s t) :
    Effect taken (fun _ => False) (fun _ => False) s t where
  inv := indexInv_of_sameIndex hs hst
  on := hst.enableEvents.trans hon
  entered k := by simp
  kept b _ := by rw [keysOf_of_sameIndex hst]
  known p := by simp [KvEvents.known, hst.events]

/-- A block loses all its keys, and each is announced as removed. -/
theorem effect_drop (b : Fin n) :
    Effect taken (fun c => c = b) (fun _ => False) s
      ((s.removeCachedBlockHashes b).2.emitBlockRemovedEvents (s.removeCachedBlockHashes b).1) := by
  have hon' : (s.removeCachedBlockHashes b).2.enableKvCacheEvents = true := by
    unfold removeCachedBlockHashes
    simp only
    split_ifs <;> exact hon
  have hqueue : (s.removeCachedBlockHashes b).2.kvEventQueue = s.kvEventQueue := by
    unfold removeCachedBlockHashes
    simp only
    split_ifs <;> rfl
  have hinv := indexInv_removeCachedBlockHashes hs b
  have hkeys := keysOf_removeCachedBlockHashes s b
  rw [removeCachedBlockHashes_fst hs]
  refine ⟨?_, ?_, fun k => ?_, fun c hc => ?_, fun p => ?_⟩
  · rw [emitBlockRemovedEvents, if_pos hon']
    exact ⟨hinv.index_iff, hinv.keys_nodup, hinv.no_secondary, hinv.null_iff, hinv.null_keys,
      hinv.wellFormed, hinv.disabled⟩
  · rw [emitBlockRemovedEvents, if_pos hon']
    exact hon'
  · rw [keysOf_emitBlockRemovedEvents]
    simp [hkeys]
  · rw [keysOf_emitBlockRemovedEvents, hkeys, if_neg hc]
  · rw [emitBlockRemovedEvents, if_pos hon', KvEvents.known, KvEvents.known, foldEvents, hqueue,
      ← append_assoc, foldl_append, mem_foldl_removed]
    simp [foldEvents]

theorem effect_evict (b : Fin n) :
    Effect taken (fun c => c = b) (fun _ => False) s (s.maybeEvictCachedBlock b).2 := by
  have hdrop := effect_drop taken hs hon b
  unfold maybeEvictCachedBlock
  simp only
  split_ifs with hnil
  · rw [hnil] at hdrop
    rw [emitBlockRemovedEvents] at hdrop
    simpa using hdrop
  · exact hdrop

/-- A key entered for a block without keys is still to be announced. -/
theorem effect_enter (hcaching : s.enableCaching = true) (hb : b ≠ s.nullBlock)
    (hnil : keysOf s b = []) (key : BlockHashWithGroupId) (numTokens : Option ℕ) :
    Effect taken (fun c => c = b) (fun k => k = key) s (enterKey s key b numTokens) := by
  have hnew : key ∉ keysOf s b := by simp [hnil]
  have hself := keysOf_enterKey_self hs hnew numTokens
  refine ⟨indexInv_enterKey hs hnew hb hcaching numTokens, ?_, fun k => ?_,
    fun c hc => keysOf_enterKey_of_ne hc s key numTokens, fun p => ?_⟩
  · unfold enterKey
    split_ifs <;> exact hon
  · simp [hself, hnil]
  · have hqueue : (enterKey s key b numTokens).kvEventQueue = s.kvEventQueue := by
      unfold enterKey
      split_ifs <;> rfl
    simp [KvEvents.known, hqueue, hnil]

theorem claimBlock_effect (b : Fin n) :
    Ensures (claimBlock b) s (fun _ t => Effect taken (fun c => c = b) (fun _ => False) s t)
      (fun _ _ => True) := by
  simp only [claimBlock, ensures_bind, ensures_modify, ensures_get, ensures_check, ensures_set]
  refine ⟨fun _ => ?_, fun _ => trivial⟩
  by_cases hcaching : s.enableCaching = true
  · rw [if_pos hcaching]
    have hevict := effect_evict taken hs hon b
    have hcount := effect_of_sameIndex taken hevict.inv hevict.on
      (addRef_sameIndex (s.maybeEvictCachedBlock b).2 b 1)
    exact (hevict.trans hcount fun _ _ hfalse => hfalse.elim).congr (by simp) (by simp)
  · rw [if_neg hcaching]
    have hnil := hs.disabled (Bool.eq_false_iff.mpr hcaching) b
    have hcount := effect_of_sameIndex taken hs hon (addRef_sameIndex s b 1)
    refine (hcount.add_nil hnil ?_).congr (by simp) (by simp)
    rw [keysOf_addRef, hnil]

theorem claimBlocks_effect (bs : List (Fin n)) :
    Ensures (forM bs claimBlock) s
      (fun _ t => Effect taken (fun c => c ∈ bs) (fun _ => False) s t) (fun _ _ => True) := by
  induction bs generalizing s with
  | nil => exact (effect_of_sameIndex taken hs hon (refl_of SameIndex s)).congr (by simp) (by simp)
  | cons b bs ih =>
    rw [forM_cons, ensures_bind]
    refine (claimBlock_effect taken hs hon b).imp ?_
    intro _ t ht
    refine (ih ht.inv ht.on).imp ?_
    intro _ u hu
    refine (ht.trans hu fun c hc _ => ?_).congr (by simp) (by simp)
    exact eq_nil_iff_forall_not_mem.mpr fun k hk => (ht.entered k).mpr ⟨c, hc, hk⟩

/-- Only the blocks handed out lose their keys. -/
theorem getNewBlocks_effect {free : List (Fin n)} (hfree : FreeListInv s free) (k : ℕ) :
    Ensures (getNewBlocks k) s
      (fun _ t => Effect taken (fun c => c ∈ free.take k) (fun _ => False) s t)
      (fun _ _ => True) := by
  simp only [getNewBlocks, ensures_bind, ensures_get, ensures_check, ensures_pure, hfree.count]
  refine ⟨fun hk => ?_, fun _ => trivial⟩
  have hpop : Ensures (onQueue (popleftN k)) s (fun r _ => r = free.take k) (fun _ _ => True) := by
    rw [onQueue, ensures_zoom]
    exact (popleftN_spec hfree.represents hk).weaken (fun _ _ h => h.1)
  refine (hpop.and (onQueue_within _ s)).weaken ?_
  rintro r t ⟨rfl, hst⟩
  have hnone := effect_of_sameIndex taken hs hon hst
  refine (claimBlocks_effect taken hnone.inv hnone.on _).imp ?_
  intro _ u hu
  exact (hnone.trans hu fun _ hfalse => hfalse.elim).congr (by simp) (by simp)

theorem evictBlocks_effect (ids : List ℕ) :
    Ensures (evictBlocks ids) s
      (fun _ t => Effect taken (fun c : Fin n => c.val ∈ ids) (fun _ => False) s t)
      (fun _ _ => True) := by
  induction ids generalizing s with
  | nil => exact (effect_of_sameIndex taken hs hon (refl_of SameIndex s)).congr (by simp) (by simp)
  | cons id ids ih =>
    rw [evictBlocks, forM_cons, ensures_bind]
    split
    · next hid =>
      rw [ensures_modify]
      have hevict := effect_evict taken hs hon ⟨id, hid⟩
      refine (ih hevict.inv hevict.on).imp ?_
      intro _ u hu
      refine (hevict.trans hu fun c hc _ => ?_).congr (fun c => ?_) (by simp)
      · exact eq_nil_iff_forall_not_mem.mpr fun k hk => (hevict.entered k).mpr ⟨c, hc, hk⟩
      · rw [mem_cons, Fin.ext_iff]
    · exact trivial

theorem dropBlockHashes_effect (b : Fin n) :
    Ensures (dropBlockHashes b) s
      (fun _ t => Effect taken (fun c => c = b) (fun _ => False) s t ∧ SameCounts s t)
      (fun _ _ => False) :=
  ⟨effect_drop taken hs hon b, (dropBlockHashes_within (P := fun _ _ => False) b s).sameCounts⟩

theorem insertBlockHash_effect (hcaching : s.enableCaching = true) (hb : b ≠ s.nullBlock)
    (hnil : keysOf s b = []) (key : BlockHashWithGroupId) (numTokens : Option ℕ) :
    Ensures (insertBlockHash key b numTokens) s
      (fun _ t => Effect taken (fun c => c = b) (fun k => k = key) s t ∧ SameCounts s t)
      (fun _ _ => True) := by
  refine (insertBlockHash_spec key b numTokens s).weaken ?_
  rintro _ t (⟨hheld, -⟩ | ⟨-, rfl⟩)
  · rw [s.cachedBlockHashToBlock.contain_iff, hs.index_iff, hnil] at hheld
    have hprimary : (s.blocks b).blockHash = none := by
      have := (append_eq_nil_iff.mp hnil).1
      simpa using this
    simp [hprimary] at hheld
  · exact ⟨effect_enter taken hs hon hcaching hb hnil key numTokens,
      enterKey_sameCounts s key b numTokens⟩
end

end

/-- The new full blocks that are neither null nor masked out. -/
def processed (s : BlockPool n) (mask : Option (List Bool)) (l : List (Fin n × ℕ)) :
    List (Fin n × ℕ) :=
  l.filter fun entry => !((s.blocks entry.1).isNull || maskedOut mask entry.2)

theorem processed_congr (hst : SameCounts s t) (mask : Option (List Bool)) (l : List (Fin n × ℕ)) :
    processed t mask l = processed s mask l := by
  simp only [processed, hst.isNull]

theorem processed_cons_of_skipped {mask : Option (List Bool)} {l : List (Fin n × ℕ)}
    (h : ((s.blocks b).isNull || maskedOut mask i) = true) :
    processed s mask ((b, i) :: l) = processed s mask l :=
  filter_cons_of_neg (by simp [h])

theorem processed_cons_of_kept {mask : Option (List Bool)} {l : List (Fin n × ℕ)}
    (h : ¬ ((s.blocks b).isNull || maskedOut mask i) = true) :
    processed s mask ((b, i) :: l) = (b, i) :: processed s mask l :=
  filter_cons_of_pos (by simpa using h)

/-- The caching loop takes the keys of the blocks it processes and gives each
of them a new one. -/
theorem cacheFullLoop_effect (hs : IndexInv s) (hon : s.enableKvCacheEvents = true)
    (hcaching : s.enableCaching = true) (hashes : List BlockHash) (mask : Option (List Bool))
    (nc blockSize : ℕ) (g : GroupId) (l : List (Fin n × ℕ))
    (hnd : ((processed s mask l).map Prod.fst).Nodup) :
    Ensures (cacheFullLoop hashes mask nc blockSize g l) s
      (fun new t => new = (processed s mask l).filterMap (fun entry => hashes[entry.2]?) ∧
        Effect taken (fun b => b ∈ (processed s mask l).map Prod.fst)
          (fun k => ∃ h ∈ new, k = makeBlockHashWithGroupId h g) s t)
      (fun _ _ => True) := by
  induction l generalizing s with
  | nil =>
    refine ⟨rfl, (effect_of_sameIndex taken hs hon (refl_of SameIndex s)).congr ?_ ?_⟩
    · simp [processed]
    · simp
  | cons entry l ih =>
    obtain ⟨b, i⟩ := entry
    simp only [cacheFullLoop, ensures_bind, ensures_get, ensures_ite]
    refine ⟨fun hskip => ?_, fun hskip => ?_⟩
    · rw [processed_cons_of_skipped hskip] at hnd ⊢
      exact ih hs hon hcaching hnd
    have hb : b ≠ s.nullBlock := fun heq => hskip (by simp [(hs.null_iff b).mpr heq])
    rw [processed_cons_of_kept hskip] at hnd ⊢
    obtain ⟨hout, hnd⟩ := nodup_cons.mp hnd
    rw [ensures_expect]
    refine ⟨fun blockHash hhash => ?_, fun _ => trivial⟩
    -- from the state in which the block has no keys to the end of the loop
    have hrest : ∀ t, Effect taken (fun c => c = b) (fun _ => False) s t → SameCounts s t →
        Ensures (insertBlockHash (makeBlockHashWithGroupId blockHash g) b
          (some ((nc + i + 1) * blockSize))) t (fun _ u =>
            Ensures (cacheFullLoop hashes mask nc blockSize g l) u (fun new v =>
              blockHash :: new = ((b, i) :: processed s mask l).filterMap
                (fun entry => hashes[entry.2]?) ∧
              Effect taken (fun c => c ∈ ((b, i) :: processed s mask l).map Prod.fst)
                (fun k => ∃ h ∈ blockHash :: new, k = makeBlockHashWithGroupId h g) s v)
              (fun _ _ => True)) (fun _ _ => True) := by
      intro t ht hst
      have hnil : keysOf t b = [] :=
        eq_nil_iff_forall_not_mem.mpr fun k hk => (ht.entered k).mpr ⟨b, rfl, hk⟩
      refine (insertBlockHash_effect taken ht.inv ht.on
        (hst.enableCaching.trans hcaching) (hst.nullBlock ▸ hb) hnil _ _).imp ?_
      rintro _ u ⟨hu, htu⟩
      have hsu := hst.trans htu
      have hproc' := processed_congr hsu mask l
      refine (ih hu.inv hu.on (hsu.enableCaching.trans hcaching) (hproc' ▸ hnd)).imp ?_
      rintro new v ⟨hnew, hv⟩
      rw [hproc'] at hnew hv
      refine ⟨by simp [hhash, hnew], ?_⟩
      have hfirst := ht.trans hu fun c hc _ => hc ▸ hnil
      refine (hfirst.trans hv fun c hc hin => ?_).congr (fun c => ?_) (fun k => ?_)
      · rw [or_self] at hc
        exact absurd (hc ▸ hin) hout
      · simp
      · simp
    rw [ensures_onlyIf, ensures_bind, ensures_check]
    refine ⟨fun _ => ⟨fun _ => ?_, fun _ => trivial⟩, fun hnone => ?_⟩
    · refine (dropBlockHashes_effect taken hs hon b).mono ?_ (fun _ _ h => h.elim)
      rintro _ t ⟨ht, hst⟩
      simpa only [ensures_pure] using hrest t ht hst
    · have hnil := hs.keysOf_eq_nil (b := b) (by simpa using hnone)
      have hnothing := effect_of_sameIndex taken hs hon (refl_of SameIndex s)
      have ht : Effect taken (fun c => c = b) (fun _ => False) s s :=
        (hnothing.add_nil hnil hnil).congr (by simp) fun _ => Iff.rfl
      simpa only [ensures_pure] using hrest s ht (SameCounts.refl s)

def Announces (new : List BlockHash) (g : GroupId) : Prop :=
  ∀ start, foldEvent start e = start ∪ {p | p.1 ∈ new ∧ p.2 = g}

theorem known_append {new : List BlockHash} {g : GroupId} (he : Announces e new g)
    (p : BlockHash × GroupId) :
    p ∈ KvEvents.known taken { t with kvEventQueue := t.kvEventQueue ++ [e] } ↔
      p ∈ KvEvents.known taken t ∨
        ∃ k, (∃ h ∈ new, k = makeBlockHashWithGroupId h g) ∧ p = pairOf k := by
  obtain ⟨h, g'⟩ := p
  rw [KvEvents.known, foldEvents, ← append_assoc, foldl_append, foldl_cons,
    foldl_nil, he]
  refine or_congr Iff.rfl ⟨?_, ?_⟩
  · rintro ⟨hin, rfl⟩
    exact ⟨_, ⟨h, hin, rfl⟩, (pairOf_make h g').symm⟩
  · rintro ⟨k, ⟨h', hin, rfl⟩, heq⟩
    rw [pairOf_make] at heq
    cases heq
    exact ⟨hin, rfl⟩

/-- The event of `cache_full_blocks` announces the hashes that its loop has cached. -/
theorem emitFullBlocksStored_announces (blocks : List (Fin n)) (hashes new : List BlockHash)
    (nc nf blockSize : ℕ) (g : GroupId) (mask : Option (List Bool)) (t : BlockPool n) :
    Ensures (emitFullBlocksStored r blocks hashes new nc nf blockSize g mask) t
      (fun _ u => ∃ e, u = { t with kvEventQueue := t.kvEventQueue ++ [e] } ∧ Announces e new g)
      (fun _ _ => True) := by
  simp only [emitFullBlocksStored, ensures_bind, ensures_get, appendEvent, ensures_modify]
  refine (parentBlockHash_within (R := Eq) hashes nc t).weaken ?_
  rintro parent _ rfl
  refine (storedIndices_within (R := Eq) t blocks mask nc _ t).weaken ?_
  rintro indices _ rfl
  exact ⟨_, rfl, fun _ => rfl⟩

def cachedHashes (blockHashes : List BlockHash) (hashBlockSize blockSize : ℕ) : List BlockHash :=
  if blockSize = hashBlockSize then blockHashes
  else mergedHashes blockHashes (blockSize / hashBlockSize)

theorem resolveBlockHashes_spec (hashes : List BlockHash) (hashBlockSize blockSize : ℕ)
    (s : BlockPool n) :
    Ensures (resolveBlockHashes hashes hashBlockSize blockSize) s
      (fun r t => t = s ∧ r = cachedHashes hashes hashBlockSize blockSize) (fun _ _ => True) := by
  simp only [resolveBlockHashes, ensures_ite, ensures_pure, ensures_bind, ensures_check]
  refine ⟨fun heq => ⟨trivial, ?_⟩, fun hne => ⟨fun _ => ⟨trivial, ?_⟩, fun _ => trivial⟩⟩
  · rw [cachedHashes, if_pos heq]
  · rw [cachedHashes, if_neg hne]

def newlyCached (s : BlockPool n) (blocks : List (Fin n)) (nc nf : ℕ)
    (mask : Option (List Bool)) : List (Fin n × ℕ) :=
  if nf ≤ nc then [] else processed s mask ((blocks.take nf).drop nc).zipIdx

/-- The new full blocks have exchanged their keys for the ones that are announced. -/
theorem cacheFullBlocks_change (hs : IndexInv s) (hon : s.enableKvCacheEvents = true)
    (hcaching : s.enableCaching = true) (r : Request) (blocks : List (Fin n)) (nc nf : ℕ)
    (blockSize : ℕ) (g : GroupId) (mask : Option (List Bool))
    (hnd : ((newlyCached s blocks nc nf mask).map Prod.fst).Nodup) :
    Ensures (cacheFullBlocks r blocks nc nf blockSize g mask) s
      (fun _ u => Change taken (fun b => b ∈ (newlyCached s blocks nc nf mask).map Prod.fst)
        (fun k => ∃ entry ∈ newlyCached s blocks nc nf mask, ∃ h,
          (cachedHashes r.blockHashes s.hashBlockSize blockSize)[nc + entry.2]? = some h ∧
          k = makeBlockHashWithGroupId h g) s u)
      (fun _ _ => True) := by
  simp only [cacheFullBlocks, ensures_ite, ensures_pure]
  refine ⟨fun hold => ?_, fun hnew => ?_⟩
  · have hnil : newlyCached s blocks nc nf mask = [] := if_pos hold
    have hnothing := effect_of_sameIndex taken hs hon (refl_of SameIndex s)
    exact hnothing.change_of_none.congr (by simp [hnil]) (by simp [hnil])
  have hlist : newlyCached s blocks nc nf mask =
      processed s mask ((blocks.take nf).drop nc).zipIdx := if_neg hnew
  rw [hlist] at hnd ⊢
  simp only [ensures_bind, ensures_check, ensures_get]
  refine ⟨fun _ => ?_, fun _ => trivial⟩
  refine (resolveBlockHashes_spec _ _ _ s).weaken ?_
  rintro hashes _ ⟨rfl, rfl⟩
  refine (cacheFullLoop_effect taken hs hon hcaching _ mask nc blockSize g _ hnd).weaken ?_
  rintro new t ⟨hnew', ht⟩
  rw [ensures_onlyIf]
  refine ⟨fun _ => ?_, fun hoff => absurd hon hoff⟩
  refine (emitFullBlocksStored_announces r blocks _ new nc nf blockSize g mask t).weaken ?_
  rintro _ u ⟨e, rfl, he⟩
  refine (ht.change (u := { t with kvEventQueue := t.kvEventQueue ++ [e] }) rfl
    (known_append taken e he)).congr (fun _ => Iff.rfl) fun k => ?_
  rw [hnew']
  simp only [mem_filterMap, getElem?_drop]
  constructor
  · rintro ⟨entry, hin, h, hh, rfl⟩
    exact ⟨h, ⟨entry, hin, hh⟩, rfl⟩
  · rintro ⟨h, ⟨entry, hin, hh⟩, rfl⟩
    exact ⟨entry, hin, h, hh, rfl⟩

def partialKey (numTokens hashBlockSize : ℕ) (g : GroupId) : Option BlockHashWithGroupId :=
  (r.blockHashes[numTokens / hashBlockSize - 1]?).map fun h => makeBlockHashWithGroupId h g

def PartialDrops (s : BlockPool n) (r : Request) (b : Fin n) (numTokens : ℕ) (g : GroupId)
    (replace : Bool) : Prop :=
  NonNull s b ∧ ∃ key ∈ partialKey r numTokens s.hashBlockSize g,
    replacesHashes s b key (numTokens / s.hashBlockSize * s.hashBlockSize) replace = true

def PartialStores (s : BlockPool n) (r : Request) (b : Fin n) (numTokens : ℕ) (g : GroupId)
    (replace : Bool) (k : BlockHashWithGroupId) : Prop :=
  NonNull s b ∧ k ∈ partialKey r numTokens s.hashBlockSize g ∧
    (replace = true ∨ alreadyCached s b k = false)

/-- The store event of `cache_partial_block`, if it is due. -/
theorem announce_tail {h : BlockHash} {g : GroupId} {e : KVCacheEvent}
    (he : Announces e [h] g)
    (hinv : Effect taken D (fun k => k = makeBlockHashWithGroupId h g) s t) :
    Change taken D (fun k => k = makeBlockHashWithGroupId h g) s
      { t with kvEventQueue := t.kvEventQueue ++ [e] } := by
  refine hinv.change rfl fun p => (known_append taken e he p).trans (or_congr Iff.rfl ?_)
  simp

/-- A key is entered besides those the block has, and announced. -/
theorem change_addKey (hs : IndexInv s) {h : BlockHash} {g : GroupId}
    (hnew : makeBlockHashWithGroupId h g ∉ keysOf s b) (numTokens : Option ℕ) {e : KVCacheEvent}
    (he : Announces e [h] g) :
    Change taken (fun _ => False) (fun k => k = makeBlockHashWithGroupId h g) s
      { enterKey s (makeBlockHashWithGroupId h g) b numTokens with
        kvEventQueue :=
          (enterKey s (makeBlockHashWithGroupId h g) b numTokens).kvEventQueue ++ [e] } := by
  set t := enterKey s (makeBlockHashWithGroupId h g) b numTokens with ht
  have hqueue : t.kvEventQueue = s.kvEventQueue := by
    rw [ht]
    unfold enterKey
    split_ifs <;> rfl
  have hself : keysOf t b = keysOf s b ++ [makeBlockHashWithGroupId h g] :=
    keysOf_enterKey_self hs hnew numTokens
  have hother {c : Fin n} (hc : c ≠ b) : keysOf t c = keysOf s c := keysOf_enterKey_of_ne hc s _ _
  refine ⟨fun k => ?_, fun p => ?_⟩
  · constructor
    · rintro ⟨c, hk⟩
      by_cases hc : c = b
      · have hk' : k ∈ keysOf t b := hc ▸ hk
        rw [hself, mem_append, mem_singleton] at hk'
        exact hk'.symm.imp id fun hk => ⟨b, not_false, hk⟩
      · exact .inr ⟨c, not_false, hother hc ▸ hk⟩
    · rintro (rfl | ⟨c, -, hk⟩)
      · exact ⟨b, show _ ∈ keysOf t b by simp [hself]⟩
      · by_cases hc : c = b
        · rw [hc] at hk
          exact ⟨b, show k ∈ keysOf t b by simp [hself, hk]⟩
        · exact ⟨c, show k ∈ keysOf t c from (hother hc).symm ▸ hk⟩
  · refine (known_append taken e he p).trans (or_congr ?_ (by simp))
    simp [KvEvents.known, hqueue]

/-- The keys of a block give way to one key, which is announced. -/
theorem change_replaceKeys (hs : IndexInv s) (hon : s.enableKvCacheEvents = true)
    (hcaching : s.enableCaching = true) (hb : b ≠ s.nullBlock) {h : BlockHash} {g : GroupId}
    (numTokens : Option ℕ) {e : KVCacheEvent} (he : Announces e [h] g) :
    Ensures (do dropBlockHashes b; insertBlockHash (makeBlockHashWithGroupId h g) b numTokens) s
      (fun _ u => Change taken (fun c => c = b) (fun k => k = makeBlockHashWithGroupId h g) s
        { u with kvEventQueue := u.kvEventQueue ++ [e] })
      (fun _ _ => True) := by
  rw [ensures_bind]
  refine (dropBlockHashes_effect taken hs hon b).mono ?_ (fun _ _ h => h.elim)
  rintro _ t ⟨ht, hst⟩
  have hnil : keysOf t b = [] :=
    eq_nil_iff_forall_not_mem.mpr fun k hk => (ht.entered k).mpr ⟨b, rfl, hk⟩
  refine (insertBlockHash_effect taken ht.inv ht.on
    (hst.enableCaching.trans hcaching) (hst.nullBlock ▸ hb) hnil _ _).imp ?_
  rintro _ u ⟨hu, -⟩
  have htotal : Effect taken (fun c => c = b)
      (fun k => k = makeBlockHashWithGroupId h g) s u :=
    (ht.trans hu fun c hc _ => hc ▸ hnil).congr (by simp) (by simp)
  exact announce_tail taken he htotal

theorem partialDrops_iff {r : Request} {numTokens : ℕ} {g : GroupId} {replace : Bool}
    {key : BlockHashWithGroupId} (hb : NonNull s b)
    (hkey : partialKey r numTokens s.hashBlockSize g = some key) :
    PartialDrops s r b numTokens g replace ↔
      replacesHashes s b key (numTokens / s.hashBlockSize * s.hashBlockSize) replace = true := by
  simp [PartialDrops, hb, hkey]

theorem partialStores_iff {r : Request} {numTokens : ℕ} {g : GroupId} {replace : Bool}
    {key k : BlockHashWithGroupId} (hb : NonNull s b)
    (hkey : partialKey r numTokens s.hashBlockSize g = some key) :
    PartialStores s r b numTokens g replace k ↔
      k = key ∧ (replace = true ∨ alreadyCached s b key = false) := by
  simp only [PartialStores, hb, hkey, Option.mem_some_iff, true_and]
  constructor
  · rintro ⟨rfl, hor⟩
    exact ⟨rfl, hor⟩
  · rintro ⟨rfl, hor⟩
    exact ⟨rfl, hor⟩

/-- The partial block gets its key, after losing those it is to replace. -/
theorem cachePartialBlock_change (hs : IndexInv s) (hon : s.enableKvCacheEvents = true)
    (hcaching : s.enableCaching = true) (r : Request) (b : Fin n) (numTokens : ℕ) (g : GroupId)
    (blockSize : ℕ) (replace : Bool) :
    Ensures (cachePartialBlock r b numTokens g blockSize replace) s
      (fun _ u => Change taken (fun c => PartialDrops s r b numTokens g replace ∧ c = b)
        (PartialStores s r b numTokens g replace) s u)
      (fun _ _ => True) := by
  have hnothing := effect_of_sameIndex taken hs hon (refl_of SameIndex s)
  simp only [cachePartialBlock, getPartialBlockHash, ensures_bind, ensures_get, ensures_ite,
    ensures_pure, ensures_check, ensures_expect]
  refine ⟨fun hnull => ?_, fun hnull => ⟨fun _ => ⟨fun _ => ⟨fun _ => ⟨fun _ => ⟨fun h hh => ?_,
    fun _ => trivial⟩, fun _ => trivial⟩, fun _ => trivial⟩, fun _ => trivial⟩, fun _ => trivial⟩⟩
  · refine hnothing.change_of_none.congr (fun _ => ?_) (fun _ => ?_)
    · simp [PartialDrops, NonNull, hnull]
    · simp [PartialStores, NonNull, hnull]
  have hnonnull : NonNull s b := Bool.eq_false_iff.mpr hnull
  have hb : b ≠ s.nullBlock := fun heq => hnull ((hs.null_iff b).mpr heq)
  have hkey : partialKey r numTokens s.hashBlockSize g = some (makeBlockHashWithGroupId h g) := by
    rw [partialKey, hh, Option.map_some]
  set key := makeBlockHashWithGroupId h g
  have hevent : Announces (partialStoredEvent r h numTokens s.hashBlockSize g) [h] g :=
    fun _ => rfl
  simp only [ensures_onlyIf, appendEvent, ensures_modify]
  refine ⟨fun hrep => ?_, fun hrep => ?_⟩
  · -- the keys of the block are replaced
    have hdue : replace = true ∨ alreadyCached s b key = false := by
      rw [replacesHashes, decide_eq_true_iff] at hrep
      exact hrep.imp id fun h => h.1
    have hrun := change_replaceKeys taken hs hon hcaching hb
      (some (numTokens / s.hashBlockSize * s.hashBlockSize)) hevent
    rw [ensures_bind] at hrun
    refine hrun.imp fun _ t ht => ht.imp fun _ u hu => ?_
    refine ⟨fun _ => ?_, fun hnot => absurd ⟨hon, hdue⟩ hnot⟩
    refine hu.congr (fun c => ?_) (fun k => ?_)
    · rw [partialDrops_iff hnonnull hkey]
      simp [hrep]
    · rw [partialStores_iff hnonnull hkey]
      exact ⟨fun hk => hk.1, fun hk => ⟨hk, hdue⟩⟩
  · have hrep' : replacesHashes s b key (numTokens / s.hashBlockSize * s.hashBlockSize) replace =
        false := Bool.eq_false_iff.mpr hrep
    refine (insertBlockHash_spec _ _ _ s).weaken ?_
    rintro _ t (⟨hheld, rfl⟩ | ⟨hnew, rfl⟩)
    · -- the block has the key, and nothing is announced
      have hcached : alreadyCached t b key = true := by simpa [alreadyCached] using hheld
      have hnotrep : replace = false := by
        cases replace with
        | false => rfl
        | true => simp [replacesHashes] at hrep'
      refine ⟨fun hdue => absurd hdue.2 (by simp [hnotrep, hcached]), fun _ => ?_⟩
      refine hnothing.change_of_none.congr (fun c => ?_) (fun k => ?_)
      · rw [partialDrops_iff hnonnull hkey, hrep']
        simp
      · rw [partialStores_iff hnonnull hkey, hnotrep, hcached]
        simp
    · have hcached : alreadyCached s b key = false := by
        rw [alreadyCached, decide_eq_false_iff_not]
        exact hnew
      have hout : key ∉ keysOf s b := fun hin => hnew
        (.inr ((s.cachedBlockHashToBlock.contain_iff _ _).mpr ((hs.index_iff _ _).mpr hin)))
      refine ⟨fun _ => ?_, fun hnot => absurd ⟨hon, .inr hcached⟩ hnot⟩
      refine (change_addKey taken hs hout _ hevent).congr (fun c => ?_) (fun k => ?_)
      · rw [partialDrops_iff hnonnull hkey, hrep']
        simp
      · rw [partialStores_iff hnonnull hkey]
        exact ⟨fun hk => hk.1, fun hk => ⟨hk, .inr hcached⟩⟩

theorem insertBlockHashes_keys (hs : IndexInv s) (hcaching : s.enableCaching = true)
    (hb : b ≠ s.nullBlock) (numTokens : Option ℕ) (keys : List BlockHashWithGroupId)
    (hnd : (keysOf s b ++ keys).Nodup) :
    Ensures (forM keys fun key => insertBlockHash key b numTokens) s
      (fun _ t => keysOf t b = keysOf s b ++ keys ∧ (∀ c, c ≠ b → keysOf t c = keysOf s c) ∧
        t.kvEventQueue = s.kvEventQueue)
      (fun _ _ => True) := by
  induction keys generalizing s with
  | nil => exact ⟨(append_nil _).symm, fun _ _ => rfl, rfl⟩
  | cons key keys ih =>
    rw [forM_cons, ensures_bind]
    have hnew : key ∉ keysOf s b := fun hin =>
      (nodup_append.mp hnd).2.2 key hin key mem_cons_self rfl
    refine (insertBlockHash_spec key b numTokens s).weaken ?_
    rintro _ t (⟨hheld, -⟩ | ⟨-, rfl⟩)
    · rw [s.cachedBlockHashToBlock.contain_iff, hs.index_iff] at hheld
      exact absurd (hheld.elim (fun h => mem_keysOf.mpr (.inl h)) id) hnew
    have hsame := enterKey_sameCounts s key b numTokens
    have hself := keysOf_enterKey_self hs hnew numTokens
    have hqueue : (enterKey s key b numTokens).kvEventQueue = s.kvEventQueue := by
      unfold enterKey
      split_ifs <;> rfl
    refine (ih (indexInv_enterKey hs hnew hb hcaching numTokens)
      (hsame.enableCaching.trans hcaching) (hsame.nullBlock ▸ hb) ?_).imp ?_
    · rw [hself, append_assoc]
      exact hnd
    · rintro _ u ⟨hself', hother, hqueue'⟩
      refine ⟨?_, fun c hc => ?_, hqueue'.trans hqueue⟩
      · rw [hself', hself, append_assoc]
        rfl
      · rw [hother c hc, keysOf_enterKey_of_ne hc]

/-- A move changes neither what is cached nor what is announced. -/
theorem moveBlockHashes_change (hs : IndexInv s) (hcaching : s.enableCaching = true)
    (src dst : Fin n) (hdst : dst ≠ s.nullBlock) :
    Ensures (moveBlockHashes src dst) s
      (fun _ u => Change taken (fun _ => False) (fun _ => False) s u) (fun _ _ => True) := by
  simp only [moveBlockHashes, ensures_bind, ensures_get, ensures_check]
  refine ⟨fun hnone => ⟨fun _ => ?_, fun _ => trivial⟩, fun _ => trivial⟩
  have hnil := hs.keysOf_eq_nil hnone
  have hsame := removeCachedBlockHashes_sameCounts s src
  have hkeys := keysOf_removeCachedBlockHashes s src
  have hnil' : keysOf (s.removeCachedBlockHashes src).2 dst = [] := by rw [hkeys, hnil, ite_self]
  have hmove := insertBlockHashes_keys (indexInv_removeCachedBlockHashes hs src)
    (hsame.enableCaching.trans hcaching) (hsame.nullBlock ▸ hdst)
    (s.blocks src).blockHashNumTokens (keysOf s src)
    (by rw [hnil']; exact hs.keys_nodup src)
  rw [← removeCachedBlockHashes_fst hs] at hmove
  refine hmove.imp ?_
  rintro _ u ⟨hself, hother, hqueue⟩
  rw [hnil', removeCachedBlockHashes_fst hs, nil_append] at hself
  have hqueue' : u.kvEventQueue = s.kvEventQueue := by
    rw [hqueue]
    unfold removeCachedBlockHashes
    simp only
    split_ifs <;> rfl
  refine ⟨fun k => ?_, fun p => by simp [KvEvents.known, hqueue']⟩
  rw [false_or]
  constructor
  · rintro ⟨b, hk⟩
    by_cases hb : b = dst
    · rw [hb, hself] at hk
      exact ⟨src, not_false, hk⟩
    · rw [hother b hb, hkeys] at hk
      split_ifs at hk with hsrc
      · exact (not_mem_nil hk).elim
      · exact ⟨b, not_false, hk⟩
  · rintro ⟨b, -, hk⟩
    by_cases hsrc : b = src
    · exact ⟨dst, by rw [hself, ← hsrc]; exact hk⟩
    · have hb : b ≠ dst := fun heq => by
        rw [heq, hnil] at hk
        exact not_mem_nil hk
      exact ⟨b, by rw [hother b hb, hkeys, if_neg hsrc]; exact hk⟩

end Vllm.KvEvents
