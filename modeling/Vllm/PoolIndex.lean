import Vllm.PoolRuns

/-!
The prefix-cache index against the keys recorded on the blocks. A block carries
a primary key and secondary ones (`keysOf`); the index maps a key to exactly
the blocks that carry it, in every state a pool can reach. Callers use the
caching operations only when caching is on, and move keys only to a block that
is not the null block.
-/
namespace Vllm.PoolIndex

open Outcome BlockHashMap Pool Pool.BlockPool PoolSteps PoolFreeList PoolRuns List

variable {n : ℕ} {s t : BlockPool n} {b : Fin n}

def keysOf (s : BlockPool n) (b : Fin n) : List BlockHashWithGroupId :=
  (s.blocks b).blockHash.toList ++ s.secondaryKeys b

theorem mem_keysOf {k : BlockHashWithGroupId} :
    k ∈ keysOf s b ↔ (s.blocks b).blockHash = some k ∨ k ∈ s.secondaryKeys b := by
  simp [keysOf]

structure IndexInv (s : BlockPool n) : Prop where
  index_iff : ∀ k b, b ∈ s.cachedBlockHashToBlock.blocksAt k ↔ k ∈ keysOf s b
  keys_nodup : ∀ b, (keysOf s b).Nodup
  no_secondary : ∀ b, (s.blocks b).blockHash = none → s.secondaryKeys b = []
  null_iff : ∀ b, (s.blocks b).isNull = true ↔ b = s.nullBlock
  null_keys : keysOf s s.nullBlock = []
  wellFormed : s.cachedBlockHashToBlock.WellFormed
  disabled : s.enableCaching = false → ∀ b, keysOf s b = []

/-- Secondary keys come only on top of a primary one. -/
theorem IndexInv.keysOf_eq_nil (h : IndexInv s)
    (hb : (s.blocks b).blockHash = none) : keysOf s b = [] := by
  rw [keysOf, hb, h.no_secondary b hb]
  rfl

/-! Keys and index after each kind of step. -/

variable {P : BlockPool n → Fin n → Prop} {m : BlockHashToBlockMap n} {key : BlockHashWithGroupId}

/-- A new key goes behind those that the block has. -/
theorem keysOf_enterKey_self (h : IndexInv s) (hnew : key ∉ keysOf s b) (numTokens : Option ℕ) :
    keysOf (enterKey s key b numTokens) b = keysOf s b ++ [key] := by
  by_cases hnone : (s.blocks b).blockHash = none
  · have hsecondary := h.no_secondary b hnone
    rw [h.keysOf_eq_nil hnone]
    simp [keysOf, enterKey, hnone, secondaryKeys, setBlock] at hsecondary ⊢
    exact hsecondary
  · have hout : key ∉ s.secondaryKeys b := fun hin => hnew (mem_keysOf.mpr (.inr hin))
    have hset : (s.addSecondaryKey b key).secondaryKeys b = s.secondaryKeys b ++ [key] := by
      rw [addSecondaryKey, if_neg hout]
      simp [secondaryKeys]
    have henter : keysOf (enterKey s key b numTokens) b =
        (s.blocks b).blockHash.toList ++ (s.addSecondaryKey b key).secondaryKeys b := by
      rw [enterKey, if_neg hnone]
      rfl
    rw [henter, hset, ← append_assoc, keysOf]

theorem keysOf_enterKey_of_ne {c : Fin n} (hc : c ≠ b) (s : BlockPool n)
    (key : BlockHashWithGroupId) (numTokens : Option ℕ) :
    keysOf (enterKey s key b numTokens) c = keysOf s c := by
  unfold enterKey
  split_ifs
  · simp [keysOf, secondaryKeys, setBlock, hc]
  · simp [keysOf, addSecondaryKey, secondaryKeys, hc]

@[simp]
theorem enterKey_index (s : BlockPool n) (key : BlockHashWithGroupId) (b : Fin n)
    (numTokens : Option ℕ) :
    (enterKey s key b numTokens).cachedBlockHashToBlock =
      s.cachedBlockHashToBlock.insert key b := rfl

theorem keysOf_removeCachedBlockHashes (s : BlockPool n) (b c : Fin n) :
    keysOf (s.removeCachedBlockHashes b).2 c = if c = b then [] else keysOf s c := by
  unfold removeCachedBlockHashes
  simp only
  by_cases hcb : c = b
  · subst hcb
    rw [if_pos rfl]
    by_cases hkeys : (s.blocks c).blockHash.toList ++ s.secondaryKeys c = []
    · have hprimary := (append_eq_nil_iff.mp hkeys).1
      rw [if_pos hkeys]
      simpa [keysOf, secondaryKeys] using hprimary
    · rw [if_neg hkeys]
      simp [keysOf, secondaryKeys, resetHash, setBlock]
  · rw [if_neg hcb]
    split_ifs
    · simp [keysOf, secondaryKeys, hcb]
    · simp [keysOf, secondaryKeys, resetHash, setBlock, hcb]

theorem wellFormed_popKeys (hwf : m.WellFormed) (b : Fin n) (keys : List BlockHashWithGroupId) :
    (popKeys m b keys).2.WellFormed := by
  induction keys generalizing m with
  | nil => exact hwf
  | cons key keys ih => exact ih (m.wellFormed_pop hwf key b)

/-- Popping keys of one block leaves all other pairs in the index. -/
theorem mem_blocksAt_popKeys (hwf : m.WellFormed) (b c : Fin n) (keys : List BlockHashWithGroupId)
    (k : BlockHashWithGroupId) :
    c ∈ (popKeys m b keys).2.blocksAt k ↔ c ∈ m.blocksAt k ∧ ¬ (k ∈ keys ∧ c = b) := by
  induction keys generalizing m with
  | nil => simp [popKeys]
  | cons key keys ih =>
    have hrest := ih (m.wellFormed_pop hwf key b)
    rw [m.mem_blocksAt_pop hwf] at hrest
    rw [popKeys, hrest, mem_cons]
    tauto

theorem removeCachedBlockHashes_index (s : BlockPool n) (b : Fin n) :
    (s.removeCachedBlockHashes b).2.cachedBlockHashToBlock =
      (popKeys s.cachedBlockHashToBlock b (keysOf s b)).2 := by
  unfold removeCachedBlockHashes
  simp only
  split_ifs with hkeys
  · rw [keysOf, hkeys]
    rfl
  · rfl

/-! The invariant is kept by every step. -/

/-- Block and index learn of a key together. -/
theorem indexInv_enterKey (h : IndexInv s) (hnew : key ∉ keysOf s b) (hb : b ≠ s.nullBlock)
    (hon : s.enableCaching = true) (numTokens : Option ℕ) :
    IndexInv (enterKey s key b numTokens) := by
  have hsame := enterKey_sameCounts s key b numTokens
  have hself := keysOf_enterKey_self h hnew numTokens
  have hother {c : Fin n} (hc : c ≠ b) := keysOf_enterKey_of_ne hc s key numTokens
  refine ⟨fun k c => ?_, fun c => ?_, fun c hc => ?_, fun c => ?_, ?_, ?_, fun hoff => ?_⟩
  · rw [enterKey_index, s.cachedBlockHashToBlock.mem_blocksAt_insert, h.index_iff]
    by_cases hcb : c = b
    · subst hcb
      rw [hself, mem_append, mem_singleton]
      tauto
    · rw [hother hcb]
      tauto
  · by_cases hcb : c = b
    · subst hcb
      rw [hself, nodup_append]
      refine ⟨h.keys_nodup c, nodup_singleton key, fun x hx y hy hxy => hnew ?_⟩
      exact mem_singleton.mp hy ▸ hxy ▸ hx
    · rw [hother hcb]
      exact h.keys_nodup c
  · by_cases hcb : c = b
    · subst hcb
      rw [enterKey_blocks_self] at hc
      split_ifs at hc with hnone
      exact absurd hc hnone
    · rw [enterKey_blocks_of_ne hcb] at hc
      have hnil := (hother hcb).trans (h.keysOf_eq_nil hc)
      exact (append_eq_nil_iff.mp hnil).2
  · rw [hsame.isNull, hsame.nullBlock]
    exact h.null_iff c
  · rw [hsame.nullBlock, hother hb.symm]
    exact h.null_keys
  · exact s.cachedBlockHashToBlock.wellFormed_insert h.wellFormed key b
  · rw [hsame.enableCaching, hon] at hoff
    cases hoff

/-- Block and index forget the keys together. -/
theorem indexInv_removeCachedBlockHashes (h : IndexInv s) (b : Fin n) :
    IndexInv (s.removeCachedBlockHashes b).2 := by
  have hsame := removeCachedBlockHashes_sameCounts s b
  have hkeys := keysOf_removeCachedBlockHashes s b
  have hnil {c : Fin n} (hc : keysOf s c = []) : keysOf (s.removeCachedBlockHashes b).2 c = [] := by
    rw [hkeys, hc, ite_self]
  refine ⟨fun k c => ?_, fun c => ?_, fun c hc => ?_, fun c => ?_, ?_, ?_, fun hoff c => ?_⟩
  · rw [removeCachedBlockHashes_index, mem_blocksAt_popKeys h.wellFormed, h.index_iff, hkeys]
    by_cases hcb : c = b
    · simp [hcb]
    · simp [hcb]
  · rw [hkeys]
    split_ifs
    · exact nodup_nil
    · exact h.keys_nodup c
  · by_cases hcb : c = b
    · have hself : keysOf (s.removeCachedBlockHashes b).2 c = [] := by rw [hkeys, if_pos hcb]
      exact (append_eq_nil_iff.mp hself).2
    · rw [removeCachedBlockHashes_blocks_of_ne hcb] at hc
      exact (append_eq_nil_iff.mp (hnil (h.keysOf_eq_nil hc))).2
  · rw [hsame.isNull, hsame.nullBlock]
    exact h.null_iff c
  · rw [hsame.nullBlock]
    exact hnil h.null_keys
  · rw [removeCachedBlockHashes_index]
    exact wellFormed_popKeys h.wellFormed b _
  · rw [hsame.enableCaching] at hoff
    exact hnil (h.disabled hoff c)

theorem indexInv_clearIndex (h : IndexInv s) : IndexInv (clearIndex s) :=
  ⟨fun _ _ => by simp [clearIndex, keysOf, secondaryKeys], fun _ => nodup_nil,
    fun _ _ => rfl, h.null_iff, rfl, BlockHashToBlockMap.wellFormed_empty, fun _ _ => rfl⟩

theorem keysOf_of_sameIndex (h : SameIndex s t) : keysOf t = keysOf s := by
  funext b
  rw [keysOf, keysOf, h.blockHash, secondaryKeys, secondaryKeys, h.byBlock]

theorem indexInv_of_sameIndex (h : IndexInv s) (hst : SameIndex s t) : IndexInv t := by
  have hkeys := keysOf_of_sameIndex hst
  refine ⟨fun k b => ?_, fun b => ?_, fun b hb => ?_, fun b => ?_, ?_, ?_, fun hoff => ?_⟩
  · rw [hst.index, hkeys]
    exact h.index_iff k b
  · rw [hkeys]
    exact h.keys_nodup b
  · rw [secondaryKeys, hst.byBlock]
    exact h.no_secondary b ((hst.blockHash b).symm.trans hb)
  · rw [hst.isNull, hst.nullBlock]
    exact h.null_iff b
  · rw [hkeys, hst.nullBlock]
    exact h.null_keys
  · rw [hst.index]
    exact h.wellFormed
  · rw [hkeys]
    exact h.disabled (hst.enableCaching.symm.trans hoff)

/-- One step keeps the invariant, if keys are entered only with caching on and
not for the null block. -/
theorem indexInv_step (h : IndexStep P s t) (hs : IndexInv s)
    (hP : ∀ b, P s b → s.enableCaching = true ∧ b ≠ s.nullBlock) :
    IndexInv t ∧ t.enableCaching = s.enableCaching ∧ t.nullBlock = s.nullBlock := by
  cases h with
  | count h => exact ⟨indexInv_of_sameIndex hs h, h.enableCaching, h.nullBlock⟩
  | cache h =>
    refine ⟨?_, h.sameCounts.enableCaching, h.sameCounts.nullBlock⟩
    cases h with
    | enter key b numTokens hb hnew =>
      refine indexInv_enterKey hs (fun hin => hnew (.inr ?_)) (hP b hb).2 (hP b hb).1 numTokens
      exact (s.cachedBlockHashToBlock.contain_iff key b).mpr ((hs.index_iff key b).mpr hin)
    | drop b => exact indexInv_removeCachedBlockHashes hs b
    | emit events =>
      exact ⟨hs.index_iff, hs.keys_nodup, hs.no_secondary, hs.null_iff, hs.null_keys,
        hs.wellFormed, hs.disabled⟩
    | clear => exact indexInv_clearIndex hs

/-- Changes of these kinds keep index and blocks in agreement. -/
theorem indexInv_steps (h : IndexSteps P s t) (hs : IndexInv s)
    (hP : ∀ u b, IndexInv u → u.enableCaching = s.enableCaching → u.nullBlock = s.nullBlock →
      P u b → u.enableCaching = true ∧ b ≠ u.nullBlock) :
    IndexInv t ∧ t.enableCaching = s.enableCaching ∧ t.nullBlock = s.nullBlock := by
  induction h with
  | refl => exact ⟨hs, rfl, rfl⟩
  | tail _ hlast ih =>
    obtain ⟨hu, hcaching, hnull⟩ := ih
    obtain ⟨hinv, hcaching', hnull'⟩ := indexInv_step hlast hu fun b => hP _ b hu hcaching hnull
    exact ⟨hinv, hcaching'.trans hcaching, hnull'.trans hnull⟩

@[simp]
theorem keysOf_emitBlockRemovedEvents (s : BlockPool n) (keys : List BlockHashWithGroupId) :
    keysOf (s.emitBlockRemovedEvents keys) = keysOf s := by
  unfold emitBlockRemovedEvents
  split_ifs <;> rfl

theorem keysOf_maybeEvictCachedBlock (s : BlockPool n) (b c : Fin n) :
    keysOf (s.maybeEvictCachedBlock b).2 c = if c = b then [] else keysOf s c := by
  rw [← keysOf_removeCachedBlockHashes]
  unfold maybeEvictCachedBlock
  simp only
  split_ifs
  · rfl
  · rw [keysOf_emitBlockRemovedEvents]

theorem keysOf_addRef (s : BlockPool n) (b : Fin n) (d : ℤ) : keysOf (s.addRef b d) = keysOf s := by
  funext c
  rw [keysOf, addRef_blockHash]
  rfl

theorem claimBlock_clears (b : Fin n) (h : IndexInv s) : Ensures (claimBlock b) s
      (fun _ t => IndexInv t ∧ keysOf t b = [] ∧ ∀ c, keysOf s c = [] → keysOf t c = [])
      (fun _ _ => True) := by
  have hkeys (c : Fin n) : keysOf (if s.enableCaching then (s.maybeEvictCachedBlock b).2 else s) c =
      if c = b then [] else keysOf s c := by
    split_ifs with hon hcb hcb
    · rw [keysOf_maybeEvictCachedBlock, if_pos hcb]
    · rw [keysOf_maybeEvictCachedBlock, if_neg hcb]
    · exact h.disabled (Bool.eq_false_iff.mpr hon) c
    · rfl
  have hinv : Ensures (claimBlock b) s (fun _ t => IndexInv t) (fun _ _ => True) := by
    refine (claimBlock_within (P := fun _ _ => False) b s).weaken ?_
    exact fun _ t hst => (indexInv_steps hst h fun _ _ _ _ _ hfalse => hfalse.elim).1
  have hclear : Ensures (claimBlock b) s
      (fun _ t => keysOf t b = [] ∧ ∀ c, keysOf s c = [] → keysOf t c = []) (fun _ _ => True) := by
    simp only [claimBlock, ensures_bind, ensures_modify, ensures_get, ensures_check, ensures_set]
    refine ⟨fun _ => ⟨?_, fun c hc => ?_⟩, fun _ => trivial⟩
    · rw [keysOf_addRef, hkeys, if_pos rfl]
    · rw [keysOf_addRef, hkeys, hc, ite_self]
  exact (hinv.and hclear).weaken (fun _ _ h => h)

theorem claimBlocks_clear (bs : List (Fin n)) (h : IndexInv s) : Ensures (forM bs claimBlock) s
      (fun _ t => IndexInv t ∧ (∀ b ∈ bs, keysOf t b = []) ∧ ∀ c, keysOf s c = [] → keysOf t c = [])
      (fun _ _ => True) := by
  induction bs generalizing s with
  | nil => exact ⟨h, fun _ hb => (not_mem_nil hb).elim, fun _ hc => hc⟩
  | cons b bs ih =>
    rw [forM_cons, ensures_bind]
    refine (claimBlock_clears b h).imp ?_
    rintro _ t ⟨ht, hb, hkeep⟩
    refine (ih ht).imp ?_
    rintro _ u ⟨hu, hbs, hkeep'⟩
    refine ⟨hu, fun c hc => ?_, fun c hc => hkeep' c (hkeep c hc)⟩
    cases mem_cons.mp hc with
    | inl heq => exact heq ▸ hkeep' b hb
    | inr hin => exact hbs c hin

/-- Blocks are handed out without keys. -/
theorem getNewBlocks_clear (k : ℕ) (h : IndexInv s) : Ensures (getNewBlocks k) s
      (fun r t => IndexInv t ∧ ∀ b ∈ r, keysOf t b = []) (fun _ _ => True) := by
  simp only [getNewBlocks, ensures_bind, ensures_get, ensures_check, ensures_pure]
  refine ⟨fun _ => ?_, fun _ => trivial⟩
  refine (onQueue_within _ s).weaken ?_
  intro r t hst
  have ht := indexInv_of_sameIndex h hst
  exact (claimBlocks_clear r ht).imp (fun _ _ hu => ⟨hu.1, hu.2.1⟩)

def Promised (s : BlockPool n) : PoolOp n → Prop
  | .cacheFullBlocks .. => s.enableCaching = true
  | .cachePartialBlock .. => s.enableCaching = true
  | .moveBlockHashes _ dst => s.enableCaching = true ∧ dst ≠ s.nullBlock
  | _ => True

/-- The states any sequence of operations reaches, whether or not they fail. -/
inductive Reachable [NeZero n] : BlockPool n → Prop
  | init {s : BlockPool n} (enableCaching : Bool) (hashBlockSize : ℕ) (enableEvents : Bool)
      (hinit : initPool n enableCaching hashBlockSize enableEvents = .ok s) : Reachable s
  | step {s t : BlockPool n} (h : Reachable s) (op : PoolOp n) (hop : Promised s op)
      (hrun : Leads op.exec s t) : Reachable t

/-- An operation enters keys as its caller promised. -/
theorem Promised.enters {u : BlockPool n} {op : PoolOp n} (hop : Promised s op)
    (hu : IndexInv u) (hcaching : u.enableCaching = s.enableCaching)
    (hnull : u.nullBlock = s.nullBlock) (hb : op.Enters u b) :
    u.enableCaching = true ∧ b ≠ u.nullBlock := by
  have hne : NonNull u b → b ≠ u.nullBlock := fun h heq => by
    rw [NonNull, (hu.null_iff b).mpr heq] at h
    cases h
  cases op with
  | cacheFullBlocks => exact ⟨hcaching.trans hop, hne hb⟩
  | cachePartialBlock => exact ⟨hcaching.trans hop, hne hb⟩
  | moveBlockHashes src dst =>
    rw [hcaching, hnull]
    exact ⟨hop.1, (show b = dst from hb) ▸ hop.2⟩
  | _ => exact hb.elim

theorem keysOf_newPool [NeZero n] {enableEvents : Bool}
    (h : NewPool enableEvents s) (b : Fin n) : keysOf s b = [] := by
  rw [keysOf, (h.blockHash b).1, secondaryKeys, h.byBlock b]
  rfl

/-- The index agrees with the blocks in every state, failed operations included. -/
theorem Reachable.indexInv [NeZero n] (h : Reachable s) : IndexInv s := by
  induction h with
  | init enableCaching hashBlockSize enableEvents hinit =>
    have hnew := newPool_of_initPool hinit
    have hkeys := keysOf_newPool hnew
    refine ⟨fun k b => by simp [hkeys, hnew.index], fun b => by simp [hkeys], fun b _ => ?_,
      hnew.free.null_iff, hkeys _, hnew.index ▸ BlockHashToBlockMap.wellFormed_empty,
      fun _ => hkeys⟩
    exact (append_eq_nil_iff.mp (hkeys b)).2
  | step _ op hop hrun ih =>
    exact (indexInv_steps (op.exec_within.of_leads hrun) ih
      fun _ _ hu hcaching hnull hb => hop.enters hu hcaching hnull hb).1

/-- In every reachable state the index and the blocks' own keys are one
relation, and new blocks are outside it. -/
theorem index_describes_blocks [NeZero n] {s : BlockPool n} (h : Reachable s) :
    (∀ k b, b ∈ s.cachedBlockHashToBlock.blocksAt k ↔
      (s.blocks b).blockHash = some k ∨ k ∈ s.secondaryKeys b) ∧
    (∀ b, (s.blocks b).blockHash = none → s.secondaryKeys b = []) ∧
    ((s.blocks s.nullBlock).blockHash = none ∧ s.secondaryKeys s.nullBlock = []) ∧
    (∀ k bs, s.cachedBlockHashToBlock.cache k = some (.many bs) → bs ≠ []) ∧
    ∀ numBlocks r t, (getNewBlocks numBlocks).run s = .ok r t → ∀ b ∈ r, ∀ k,
      b ∉ t.cachedBlockHashToBlock.blocksAt k := by
  have hinv := h.indexInv
  refine ⟨fun k b => (hinv.index_iff k b).trans mem_keysOf, hinv.no_secondary, ?_,
    fun k bs hk => (hinv.wellFormed k bs hk).1, fun numBlocks r t hrun b hb k => ?_⟩
  · have hnull := append_eq_nil_iff.mp hinv.null_keys
    exact ⟨Option.toList_eq_nil_iff.mp hnull.1, hnull.2⟩
  · obtain ⟨ht, hclear⟩ := (getNewBlocks_clear numBlocks hinv).of_ok hrun
    rw [ht.index_iff, hclear b hb]
    exact not_mem_nil

/-- Two requests with the same tokens cache their blocks under one key. -/
theorem index_describes_two_blocks : ∃ (s : BlockPool 3) (key : BlockHashWithGroupId),
    s.cachedBlockHashToBlock.blocksAt key = [1, 2] ∧ Reachable s ∧
    (∀ k b, b ∈ s.cachedBlockHashToBlock.blocksAt k ↔
      (s.blocks b).blockHash = some k ∨ k ∈ s.secondaryKeys b) ∧
    (∀ b, (s.blocks b).blockHash = none → s.secondaryKeys b = []) ∧
    ((s.blocks s.nullBlock).blockHash = none ∧ s.secondaryKeys s.nullBlock = []) ∧
    (∀ k bs, s.cachedBlockHashToBlock.cache k = some (.many bs) → bs ≠ []) ∧
    ∀ numBlocks r t, (getNewBlocks numBlocks).run s = .ok r t → ∀ b ∈ r, ∀ k,
      b ∉ t.cachedBlockHashToBlock.blocksAt k := by
  have hinit := Reachable.init (n := 3) true 1 true rfl
  have htaken := hinit.step (.getNewBlocks 2) trivial rfl
  have hfirst := htaken.step (.cacheFullBlocks oneBlockRequest [1] 0 1 1 0 none) rfl rfl
  have hsecond := hfirst.step (.cacheFullBlocks oneBlockRequest [2] 0 1 1 0 none) rfl rfl
  exact ⟨_, makeBlockHashWithGroupId [1] 0, rfl, hsecond, index_describes_blocks hsecond⟩

/-- Without the promises both fail. With caching off the key of a freed block stays
in the index, and the block is handed out under it. Keys that are moved to the
null block are its keys. -/
theorem unpromised_keys_stray :
    (∃ (s : BlockPool 2) (held : Fin 2 → ℕ) (t : BlockPool 2), Run s held ∧
      s.enableCaching = false ∧ (getNewBlocks 1).run s = .ok [1] t ∧
      1 ∈ t.cachedBlockHashToBlock.blocksAt (makeBlockHashWithGroupId [1] 0)) ∧
    ∃ (s : BlockPool 2) (held : Fin 2 → ℕ), Run s held ∧ s.enableCaching = true ∧
      (s.blocks s.nullBlock).blockHash = some (makeBlockHashWithGroupId [1] 0) := by
  constructor
  · have hinit := Run.init (n := 2) false 1 false rfl
    have htaken := hinit.ok (.getNewBlocks 1) (fun _ _ => Nat.zero_le _) [1] rfl
    have hcached := htaken.ok (.cacheFullBlocks oneBlockRequest [1] 0 1 1 0 none)
      (fun _ _ => Nat.zero_le _) [] rfl
    have hfreed := hcached.ok (.freeBlocks [1]) (by unfold Entitled; decide) [] rfl
    exact ⟨_, _, _, hfreed, rfl, rfl, by decide⟩
  · have hinit := Run.init (n := 2) true 1 false rfl
    have htaken := hinit.ok (.getNewBlocks 1) (fun _ _ => Nat.zero_le _) [1] rfl
    have hcached := htaken.ok (.cacheFullBlocks oneBlockRequest [1] 0 1 1 0 none)
      (fun _ _ => Nat.zero_le _) [] rfl
    have hmoved := hcached.ok (.moveBlockHashes 1 0) (fun _ _ => Nat.zero_le _) [] rfl
    exact ⟨_, _, hmoved, rfl, rfl⟩

end Vllm.PoolIndex
