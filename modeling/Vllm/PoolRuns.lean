import Vllm.PoolFreeList

/-!
Runs of the block pool. A run starts from a new pool and performs any of its
operations, successful or not, while a ledger counts the references that
callers hold. Callers give back only references they hold; nothing else is
asked of them, except that an assertion of a caching operation can fail when
its arguments violate it (`Fits`).
-/
namespace Vllm.PoolRuns

open Outcome BlockHashing BlockHashMap Pool Pool.BlockPool PoolSteps PoolFreeList

variable {n : ℕ} {P : BlockPool n → Fin n → Prop} {s : BlockPool n} {held : Fin n → ℕ}

inductive PoolOp (n : ℕ) where
  | getNewBlocks (numBlocks : ℕ)
  | touch (blocks : List (Fin n))
  | freeBlocks (orderedBlocks : List (Fin n))
  | cacheFullBlocks (r : Request) (blocks : List (Fin n)) (numCachedBlocks numFullBlocks : ℕ)
      (blockSize : ℕ) (kvCacheGroupId : GroupId) (blockMask : Option (List Bool))
  | cachePartialBlock (r : Request) (b : Fin n) (numTokens : ℕ) (kvCacheGroupId : GroupId)
      (blockSize : ℕ) (replaceExistingHashes : Bool)
  | moveBlockHashes (srcBlock dstBlock : Fin n)
  | evictBlocks (blockIds : List ℕ)
  | refreshCachedFreeBlocks (entries : List (Fin n × BlockHashWithGroupId))
  | resetPrefixCache

def PoolOp.exec : PoolOp n → PoolM n (List (Fin n))
  | .getNewBlocks k => Pool.getNewBlocks k
  | .touch bs => (fun _ => bs) <$> Pool.touch bs
  | .freeBlocks bs => (fun _ => []) <$> Pool.freeBlocks bs
  | .cacheFullBlocks r blocks nc nf bs g mask =>
    (fun _ => []) <$> Pool.cacheFullBlocks r blocks nc nf bs g mask
  | .cachePartialBlock r b nt g bs replace =>
    (fun _ => []) <$> Pool.cachePartialBlock r b nt g bs replace
  | .moveBlockHashes src dst => (fun _ => []) <$> Pool.moveBlockHashes src dst
  | .evictBlocks ids => (fun _ => []) <$> Pool.evictBlocks ids
  | .refreshCachedFreeBlocks entries => (fun _ => []) <$> Pool.refreshCachedFreeBlocks entries
  | .resetPrefixCache => (fun _ => []) <$> Pool.resetPrefixCache

def PoolOp.released : PoolOp n → List (Fin n)
  | .freeBlocks bs => bs
  | _ => []

/-- Callers free only references they hold. The null block is not counted. -/
def Entitled (held : Fin n → ℕ) (s : BlockPool n) (op : PoolOp n) : Prop :=
  ∀ b, b ≠ s.nullBlock → op.released.count b ≤ held b

/-- The states of a pool with the references its callers hold. A failed
operation leaves the state it had reached. -/
inductive Run [NeZero n] : BlockPool n → (Fin n → ℕ) → Prop
  | init {s : BlockPool n} (enableCaching : Bool) (hashBlockSize : ℕ) (enableEvents : Bool)
      (hinit : initPool n enableCaching hashBlockSize enableEvents = .ok s) : Run s fun _ => 0
  | ok {s t : BlockPool n} {held : Fin n → ℕ} (h : Run s held) (op : PoolOp n)
      (hop : Entitled held s op) (handed : List (Fin n)) (hrun : op.exec.run s = .ok handed t) :
      Run t fun b => held b + handed.count b - op.released.count b
  | error {s t : BlockPool n} {held : Fin n → ℕ} (h : Run s held) (op : PoolOp n)
      (hop : Entitled held s op) (e : Failure) (hrun : op.exec.run s = .error e t) : Run t held

def PoolOp.Fits (s : BlockPool n) : PoolOp n → Prop
  | .cacheFullBlocks _ blocks nc nf blockSize _ mask =>
    let newFullBlocks := (blocks.take nf).drop nc
    nf ≤ nc ∨ ((∀ m ∈ mask, m.length = newFullBlocks.length) ∧ 0 < blockSize ∧
      (blockSize = s.hashBlockSize ∨ blockSize % s.hashBlockSize = 0) ∧
      ∀ entry ∈ newFullBlocks.zipIdx, (s.blocks entry.1).isNull = false →
        maskedOut mask entry.2 = false → (s.blocks entry.1).blockHash.isSome →
        ∃ t ∈ (s.blocks entry.1).blockHashNumTokens, t < (nc + entry.2 + 1) * blockSize)
  | .cachePartialBlock r b numTokens _ blockSize replace =>
    (s.blocks b).isNull = true ∨ (blockSize % s.hashBlockSize = 0 ∧
      (replace ∨ (s.hashBlockSize < blockSize ∧ numTokens % blockSize ≠ 0)) ∧
      numTokens % s.hashBlockSize = 0 ∧ 0 < numTokens / s.hashBlockSize ∧
      numTokens / s.hashBlockSize ≤ r.blockHashes.length)
  | .moveBlockHashes _ dst =>
    (s.blocks dst).blockHash = none ∧ s.cachedBlockHashesByBlock dst = none
  | .evictBlocks ids => ∀ id ∈ ids, id < n
  | _ => True

/-- A block without a hash has no token count either. -/
def NoStrayCount (s : BlockPool n) : Prop :=
  ∀ b, (s.blocks b).blockHash = none → (s.blocks b).blockHashNumTokens = none

theorem removeCachedBlockHashes_blocks_of_ne {b c : Fin n} (h : c ≠ b) (s : BlockPool n) :
    (s.removeCachedBlockHashes b).2.blocks c = s.blocks c := by
  unfold removeCachedBlockHashes
  simp only
  split_ifs
  · rfl
  · exact setBlock_blocks_of_ne h _ _

theorem removeCachedBlockHashes_blocks_self (s : BlockPool n) (b : Fin n) :
    (s.removeCachedBlockHashes b).2.blocks b = s.blocks b ∧ (s.blocks b).blockHash = none ∨
      (s.removeCachedBlockHashes b).2.blocks b =
        { s.blocks b with blockHash := none, blockHashNumTokens := none } := by
  unfold removeCachedBlockHashes
  simp only
  split_ifs with hkeys
  · refine Or.inl ⟨rfl, ?_⟩
    cases hhash : (s.blocks b).blockHash with
    | none => rfl
    | some key => simp [hhash] at hkeys
  · exact .inr (setBlock_blocks_self _ _ _)

theorem enterKey_blocks_of_ne {b c : Fin n} (h : c ≠ b) (s : BlockPool n)
    (key : BlockHashWithGroupId) (numTokens : Option ℕ) :
    (enterKey s key b numTokens).blocks c = s.blocks c := by
  unfold enterKey
  split_ifs
  · exact setBlock_blocks_of_ne h _ _
  · rfl

theorem enterKey_blocks_self (s : BlockPool n) (key : BlockHashWithGroupId) (b : Fin n)
    (numTokens : Option ℕ) :
    (enterKey s key b numTokens).blocks b =
      if (s.blocks b).blockHash = none then
        { s.blocks b with blockHash := some key, blockHashNumTokens := numTokens }
      else s.blocks b := by
  unfold enterKey
  split_ifs
  · exact setBlock_blocks_self _ _ _
  · rfl

theorem noStrayCount_step {t : BlockPool n} (h : IndexStep P s t)
    (hs : NoStrayCount s) : NoStrayCount t := by
  cases h with
  | count h =>
    intro b hb
    rw [h.numTokens]
    exact hs b ((h.blockHash b).symm.trans hb)
  | cache h =>
    cases h with
    | enter key b numTokens =>
      intro c hc
      by_cases hcb : c = b
      · subst hcb
        rw [enterKey_blocks_self] at hc ⊢
        split_ifs at hc ⊢ with hnone
        exact absurd hc hnone
      · rw [enterKey_blocks_of_ne hcb] at hc ⊢
        exact hs c hc
    | drop b =>
      intro c hc
      by_cases hcb : c = b
      · subst hcb
        rcases removeCachedBlockHashes_blocks_self s c with ⟨hsame, hnone⟩ | hreset
        · rw [hsame]
          exact hs c hnone
        · rw [hreset]
      · rw [removeCachedBlockHashes_blocks_of_ne hcb] at hc ⊢
        exact hs c hc
    | emit events => exact hs
    | clear => exact fun _ _ => rfl

/-- Token counts come and go with the hash of a block. -/
theorem noStrayCount_steps {t : BlockPool n} (h : IndexSteps P s t)
    (hs : NoStrayCount s) : NoStrayCount t := by
  induction h with
  | refl => exact hs
  | tail _ hlast ih => exact noStrayCount_step hlast ih

def PoolOp.Enters (op : PoolOp n) (s : BlockPool n) (b : Fin n) : Prop :=
  match op with
  | .cacheFullBlocks .. => NonNull s b
  | .cachePartialBlock .. => NonNull s b
  | .moveBlockHashes _ dst => b = dst
  | _ => False

/-- Every operation is made of steps, however it ends. -/
theorem PoolOp.exec_within (op : PoolOp n) : Within (IndexSteps op.Enters) op.exec := by
  cases op with
  | getNewBlocks k => exact getNewBlocks_within k
  | touch bs => exact ((touch_within bs).mono fun _ _ => SameIndex.steps).map _
  | freeBlocks bs => exact ((freeBlocks_within bs).mono fun _ _ => SameIndex.steps).map _
  | cacheFullBlocks r blocks nc nf bs g mask =>
    exact ((cacheFullBlocks_within r blocks nc nf bs g mask).mono
      fun _ _ => CacheSteps.indexSteps).map _
  | cachePartialBlock r b nt g bs replace =>
    exact ((cachePartialBlock_within r b nt g bs replace).mono
      fun _ _ => CacheSteps.indexSteps).map _
  | moveBlockHashes src dst =>
    exact ((moveBlockHashes_within src dst).mono fun _ _ => CacheSteps.indexSteps).map _
  | evictBlocks ids => exact ((evictBlocks_within ids).mono fun _ _ => CacheSteps.indexSteps).map _
  | refreshCachedFreeBlocks entries =>
    exact ((refreshCachedFreeBlocks_within entries).mono fun _ _ => SameIndex.steps).map _
  | resetPrefixCache =>
    exact (resetPrefixCache_within.mono fun _ _ => CacheSteps.indexSteps).map _

/-- The exceptions an operation may stop with: no `RuntimeError`, and an
assertion only when `c` is violated. -/
def Stops (c : Prop) : Failure → Prop
  | .assertionError _ => ¬ c
  | .runtimeError _ => False
  | _ => True

/-- The assertion of `set_block_hash` cannot fail. -/
theorem insertBlockHash_returns (key : BlockHashWithGroupId) (b : Fin n) (numTokens : Option ℕ)
    (hs : NoStrayCount s) :
    Ensures (insertBlockHash key b numTokens) s
      (fun _ t => NoStrayCount t ∧ (∀ c, c ≠ b → t.blocks c = s.blocks c) ∧
        ((s.blocks b).blockHash = none →
          (t.blocks b).blockHash = none ∨ (t.blocks b).blockHashNumTokens = numTokens))
      (fun _ _ => False) := by
  have hsteps := insertBlockHash_steps (P := fun _ _ => True) key numTokens trivial
    (b := b) (s := s)
  refine (hsteps.and (insertBlockHash_spec key b numTokens s)).mono ?_ ?_
  · rintro _ t ⟨hst, hcases⟩
    refine ⟨noStrayCount_steps hst.indexSteps hs, ?_⟩
    rcases hcases with ⟨-, rfl⟩ | ⟨-, rfl⟩
    · exact ⟨fun _ _ => rfl, Or.inl⟩
    · refine ⟨fun c hc => enterKey_blocks_of_ne hc _ _ _, fun hnone => Or.inr ?_⟩
      rw [enterKey_blocks_self, if_pos hnone]
  · rintro _ t ⟨-, hnone, hcount, -⟩
    exact hcount (hs b hnone)

theorem dropBlockHashes_returns (b : Fin n) (hs : NoStrayCount s) : Ensures (dropBlockHashes b) s
      (fun _ t => NoStrayCount t ∧ (∀ c, c ≠ b → t.blocks c = s.blocks c) ∧
        (t.blocks b).blockHash = none)
      (fun _ _ => False) := by
  have hsteps := (dropBlockHashes_within (P := fun _ _ => True) b s)
  simp only [dropBlockHashes, ensures_modify] at hsteps ⊢
  have hemit : ((s.removeCachedBlockHashes b).2.emitBlockRemovedEvents
      (s.removeCachedBlockHashes b).1).blocks = (s.removeCachedBlockHashes b).2.blocks := by
    unfold emitBlockRemovedEvents
    split_ifs <;> rfl
  refine ⟨noStrayCount_steps hsteps.indexSteps hs, fun c hc => ?_, ?_⟩
  · rw [hemit, removeCachedBlockHashes_blocks_of_ne hc]
  · rw [hemit]
    rcases removeCachedBlockHashes_blocks_self s b with ⟨hsame, hnone⟩ | hreset
    · rw [hsame, hnone]
    · rw [hreset]

section
variable (newBlockHashes : List BlockHash) (mask : Option (List Bool)) (nc blockSize : ℕ)
  (g : GroupId)

def Growing (s : BlockPool n) (l : List (Fin n × ℕ)) : Prop :=
  ∀ entry ∈ l, (s.blocks entry.1).isNull = false → maskedOut mask entry.2 = false →
    (s.blocks entry.1).blockHash.isSome →
    ∃ t ∈ (s.blocks entry.1).blockHashNumTokens, t < (nc + entry.2 + 1) * blockSize

/-- Within its preconditions the loop meets no failing assertion. -/
theorem cacheFullLoop_stops {c : Prop} (hs : NoStrayCount s)
    (l : List (Fin n × ℕ)) (hc : c → 0 < blockSize ∧ l.Pairwise (·.2 < ·.2) ∧
      Growing mask nc blockSize s l) :
    Ensures (cacheFullLoop newBlockHashes mask nc blockSize g l) s (fun _ _ => True)
      (fun e _ => Stops c e) := by
  induction l generalizing s with
  | nil => exact trivial
  | cons entry l ih =>
    obtain ⟨b, i⟩ := entry
    simp only [cacheFullLoop, ensures_bind, ensures_get, ensures_ite, Bool.or_eq_true, not_or,
      Bool.not_eq_true]
    refine ⟨fun _ => ih hs fun h => ?_, fun hkept => ?_⟩
    · obtain ⟨hpos, hpair, hgrow⟩ := hc h
      exact ⟨hpos, (List.pairwise_cons.mp hpair).2,
        fun entry he => hgrow entry (List.mem_cons_of_mem _ he)⟩
    obtain ⟨hnull, hmask⟩ := hkept
    rw [ensures_expect]
    refine ⟨fun blockHash _ => ?_, fun _ => trivial⟩
    -- the block has no hash when the new one is entered
    have hinsert : ∀ t : BlockPool n, NoStrayCount t → (t.blocks b).blockHash = none →
        (∀ d, d ≠ b → t.blocks d = s.blocks d) →
        Ensures (insertBlockHash (makeBlockHashWithGroupId blockHash g) b
          (some ((nc + i + 1) * blockSize))) t
          (fun _ u => Ensures (cacheFullLoop newBlockHashes mask nc blockSize g l) u
            (fun _ _ => True) (fun e _ => Stops c e)) (fun e _ => Stops c e) := by
      intro t ht hnone hother
      refine (insertBlockHash_returns _ b _ ht).mono ?_ (fun _ _ hfalse => hfalse.elim)
      rintro _ u ⟨hu, hother', hcount⟩
      refine ih hu fun h => ?_
      obtain ⟨hpos, hpair, hgrow⟩ := hc h
      obtain ⟨hlt, hpair⟩ := List.pairwise_cons.mp hpair
      refine ⟨hpos, hpair, fun entry he hnull' hmask' hsome => ?_⟩
      by_cases hb : entry.1 = b
      · rw [hb] at hsome ⊢
        rcases hcount hnone with hnone' | hcount'
        · rw [hnone'] at hsome
          cases hsome
        · refine ⟨_, hcount', Nat.mul_lt_mul_of_pos_right ?_ hpos⟩
          have hlt' : i < entry.2 := hlt entry he
          omega
      · rw [hother' _ hb, hother _ hb] at hnull' hsome ⊢
        exact hgrow entry (List.mem_cons_of_mem _ he) hnull' hmask' hsome
    rw [ensures_onlyIf, ensures_bind, ensures_check]
    refine ⟨fun hsome => ⟨fun _ => ?_, fun hlate h => ?_⟩, fun hnone => ?_⟩
    · refine (dropBlockHashes_returns b hs).mono ?_ (fun _ _ hfalse => hfalse.elim)
      rintro _ t ⟨ht, hother, hnone⟩
      simpa only [ensures_pure] using hinsert t ht hnone hother
    · exact hlate ((hc h).2.2 _ List.mem_cons_self hnull hmask hsome)
    · have hnone' : (s.blocks b).blockHash = none := by simpa using hnone
      simpa only [ensures_pure] using hinsert s hs hnone' fun _ _ => rfl

theorem storedIndices_stops (c : Prop) (s₀ s : BlockPool n) (blocks : List (Fin n)) (l : List ℕ) :
    Ensures (storedIndices s₀ blocks mask nc l) s (fun _ _ => True) (fun e _ => Stops c e) := by
  induction l generalizing s with
  | nil => exact trivial
  | cons i l ih =>
    simp only [storedIndices, ensures_bind, ensures_expect, ensures_ite, ensures_pure]
    exact ⟨fun _ _ => ⟨fun _ => ih s, fun _ => ih s⟩, fun _ => trivial⟩

theorem emitFullBlocksStored_stops (c : Prop) (s : BlockPool n) (r : Request)
    (blocks : List (Fin n)) (blockHashes newHashes : List BlockHash) (nf : ℕ) :
    Ensures (emitFullBlocksStored r blocks blockHashes newHashes nc nf blockSize g mask) s
      (fun _ _ => True) (fun e _ => Stops c e) := by
  have hrest : Ensures (do
      let t ← get
      let indices ← storedIndices t blocks mask nc (List.range' nc (nf - nc))
      pure (t, indices)) s (fun _ _ => True) (fun e _ => Stops c e) := by
    simp only [ensures_bind, ensures_get, ensures_pure]
    exact storedIndices_stops mask nc c s s blocks _
  simp only [ensures_bind, ensures_get, ensures_pure] at hrest
  simp only [emitFullBlocksStored, parentBlockHash, appendEvent, ensures_bind, ensures_ite,
    ensures_pure, ensures_map, ensures_expect, ensures_get, ensures_modify]
  exact ⟨fun _ => hrest, fun _ => ⟨fun _ _ => hrest, fun _ => trivial⟩⟩

/-- What can stop `cache_full_blocks`: an assertion on its arguments, or an index out of range. -/
theorem cacheFullBlocks_stops (hs : NoStrayCount s) (r : Request)
    (blocks : List (Fin n)) (nf : ℕ) :
    Ensures (cacheFullBlocks r blocks nc nf blockSize g mask) s (fun _ _ => True)
      (fun e _ => Stops ((PoolOp.cacheFullBlocks r blocks nc nf blockSize g mask).Fits s) e) := by
  set c := (PoolOp.cacheFullBlocks r blocks nc nf blockSize g mask).Fits s
  simp only [cacheFullBlocks, ensures_ite, ensures_pure, ensures_bind, ensures_check, ensures_get]
  refine ⟨fun _ => trivial, fun hnew => ?_⟩
  have hc : c → _ := fun h => h.resolve_left hnew
  refine ⟨fun _ => ?_, fun hlen h => hlen (hc h).1⟩
  have hloop : ∀ hashes : List BlockHash, Ensures (cacheFullLoop (hashes.drop nc) mask nc
      blockSize g ((blocks.take nf).drop nc).zipIdx) s (fun newHashes t => Ensures
        (onlyIf (s.enableKvCacheEvents = true)
          (emitFullBlocksStored r blocks hashes newHashes nc nf blockSize g mask)) t
        (fun _ _ => True) (fun e _ => Stops c e)) (fun e _ => Stops c e) := by
    intro hashes
    have hidx : (((blocks.take nf).drop nc).zipIdx).Pairwise (·.2 < ·.2) := by
      rw [List.pairwise_iff_getElem]
      intro i j hi hj hij
      simpa using hij
    have hloop' := cacheFullLoop_stops (hashes.drop nc) mask nc blockSize g hs
      ((blocks.take nf).drop nc).zipIdx (c := c) fun h => ⟨(hc h).2.1, hidx, (hc h).2.2.2⟩
    refine hloop'.imp (fun newHashes t _ => ?_)
    rw [ensures_onlyIf]
    exact ⟨fun _ => emitFullBlocksStored_stops mask nc blockSize g c t r blocks hashes newHashes nf,
      fun _ => trivial⟩
  simp only [resolveBlockHashes, ensures_ite, ensures_pure, ensures_bind, ensures_check]
  refine ⟨fun _ => hloop _, fun hne => ⟨fun _ => hloop _, fun hmod h => ?_⟩⟩
  exact hmod ((hc h).2.2.1.resolve_left hne)
end

/-- The same of `cache_partial_block`. -/
theorem cachePartialBlock_stops (hs : NoStrayCount s) (r : Request) (b : Fin n)
    (numTokens : ℕ) (g : GroupId) (blockSize : ℕ) (replace : Bool) :
    Ensures (cachePartialBlock r b numTokens g blockSize replace) s (fun _ _ => True)
      (fun e _ =>
        Stops ((PoolOp.cachePartialBlock r b numTokens g blockSize replace).Fits s) e) := by
  simp only [cachePartialBlock, getPartialBlockHash, appendEvent, ensures_bind, ensures_get,
    ensures_ite, ensures_pure, ensures_check, ensures_expect, ensures_onlyIf, ensures_modify]
  refine ⟨fun _ => trivial, fun hnull => ?_⟩
  have hc : (PoolOp.cachePartialBlock r b numTokens g blockSize replace).Fits s → _ :=
    fun h => h.resolve_left hnull
  have hinsert (t : BlockPool n) (ht : NoStrayCount t) (key : BlockHashWithGroupId)
      (k : Option ℕ) (e : Failure → Prop) : Ensures (insertBlockHash key b k) t
        (fun _ _ => True) (fun f _ => e f) :=
    (insertBlockHash_returns key b k ht).mono (fun _ _ _ => trivial) (fun _ _ h => h.elim)
  refine ⟨fun _ => ⟨fun _ => ⟨fun _ => ⟨fun _ => ⟨fun hash _ => ⟨fun _ => ?_, fun _ => ?_⟩,
    fun _ => trivial⟩, fun hlen h => hlen (hc h).2.2.2⟩, fun hmod h => hmod (hc h).2.2.1⟩,
    fun hrep h => hrep (hc h).2.1⟩, fun hmod h => hmod (hc h).1⟩
  · refine (dropBlockHashes_returns b hs).mono (fun _ t ht => ?_) (fun _ _ h => h.elim)
    exact (hinsert t ht.1 _ _ _).imp (fun _ _ _ => by simp)
  · exact (hinsert s hs _ _ _).imp (fun _ _ _ => by simp)

theorem moveBlockHashes_stops (hs : NoStrayCount s) (src dst : Fin n) :
    Ensures (moveBlockHashes src dst) s (fun _ _ => True)
      (fun e _ => Stops ((PoolOp.moveBlockHashes src dst).Fits s) e) := by
  simp only [moveBlockHashes, ensures_bind, ensures_get, ensures_check]
  refine ⟨fun _ => ⟨fun _ => ?_, fun hkeys h => hkeys h.2⟩, fun hhash h => hhash h.1⟩
  have hdrop : NoStrayCount (s.removeCachedBlockHashes src).2 :=
    noStrayCount_step (P := fun _ _ => False) (.cache (.drop src)) hs
  refine (ensures_forM (I := NoStrayCount) _ _ (fun key _ t ht => ?_) _ hdrop).mono
    (fun _ _ _ => trivial) (fun _ _ h => h)
  exact (insertBlockHash_returns key dst _ ht).mono (fun _ _ h => h.1) (fun _ _ h => h.elim)

theorem evictBlocks_stops (s : BlockPool n) (ids : List ℕ) :
    Ensures (evictBlocks ids : PoolM n PUnit) s (fun _ _ => True)
      (fun e _ => Stops ((PoolOp.evictBlocks ids).Fits s) e) := by
  refine ensures_forM (I := fun _ => True) _ _ (fun id hid t _ => ?_) s trivial
  split
  · exact trivial
  · next hlarge => exact fun h => hlarge (h id hid)

/-- The pool as its callers see it: a sound free list, and as many references
to each block as they hold. -/
structure PoolInv (s : BlockPool n) (held : Fin n → ℕ) : Prop where
  free : ∃ free, FreeListInv s free
  stray : NoStrayCount s
  ledger : ∀ b, b ≠ s.nullBlock → (s.blocks b).refCnt = held b

/-- Caching leaves the counts of references alone, whether or not it stops. -/
theorem caching_counts {α : Type} {m : PoolM n α}
    {free : List (Fin n)} {c : Prop} (h : FreeListInv s free) (hm : Within (CacheSteps P) m)
    (hstops : Ensures m s (fun _ _ => True) (fun e _ => Stops c e)) :
    Ensures ((fun _ => []) <$> m) s
      (fun handed t => (∃ free, FreeListInv t free) ∧
        Recounted (fun b => (handed.count b : ℤ) - ([] : List (Fin n)).count b) s t)
      (fun e t => ((∃ free, FreeListInv t free) ∧ Recounted (fun _ => 0) s t) ∧ Stops c e) := by
  rw [ensures_map]
  refine ((hm s).and hstops).mono ?_ ?_
  · rintro _ t ⟨hst, -⟩
    exact ⟨⟨free, h.of_sameCounts hst.sameCounts⟩, hst.sameCounts.recounted⟩
  · rintro e t ⟨hst, he⟩
    exact ⟨⟨⟨free, h.of_sameCounts hst.sameCounts⟩, hst.sameCounts.recounted⟩, he⟩

/-- Each operation adds the references it hands out and takes off those given back. -/
theorem PoolOp.exec_counts (h : PoolInv s held)
    (op : PoolOp n) (hop : Entitled held s op) :
    Ensures op.exec s
      (fun handed t => (∃ free, FreeListInv t free) ∧
        Recounted (fun b => (handed.count b : ℤ) - op.released.count b) s t)
      (fun e t => ((∃ free, FreeListInv t free) ∧ Recounted (fun _ => 0) s t) ∧
        Stops (op.Fits s) e) := by
  obtain ⟨free, hfree⟩ := h.free
  cases op with
  | getNewBlocks k =>
    refine (getNewBlocks_spec hfree k).mono ?_ ?_
    · rintro r t ⟨-, -, hinv, hcount⟩
      exact ⟨⟨_, hinv⟩, by simpa [released] using hcount⟩
    · rintro e t ⟨-, rfl, rfl⟩
      exact ⟨⟨⟨free, hfree⟩, (SameCounts.refl t).recounted⟩, trivial⟩
  | touch bs =>
    rw [exec, ensures_map]
    refine (touch_spec hfree bs).mono ?_ (fun _ _ hfalse => hfalse.elim)
    rintro _ t ⟨hinv, hcount⟩
    exact ⟨⟨_, hinv⟩, by simpa [released] using hcount⟩
  | freeBlocks bs =>
    rw [exec, ensures_map]
    have hheld : ∀ b, (s.blocks b).isNull = false → (bs.count b : ℤ) ≤ (s.blocks b).refCnt := by
      intro b hb
      have hne : b ≠ s.nullBlock := fun heq => by
        rw [(hfree.null_iff b).mpr heq] at hb
        cases hb
      have hle : bs.count b ≤ held b := hop b hne
      rw [h.ledger b hne]
      omega
    refine (freeBlocks_spec hfree bs hheld).mono ?_ (fun _ _ hfalse => hfalse.elim)
    rintro _ t ⟨⟨_, _, hinv⟩, hcount⟩
    exact ⟨⟨_, hinv⟩, by simpa [released] using hcount⟩
  | cacheFullBlocks r blocks nc nf bs g mask =>
    exact caching_counts hfree (cacheFullBlocks_within r blocks nc nf bs g mask)
      (cacheFullBlocks_stops mask nc bs g h.stray r blocks nf)
  | cachePartialBlock r b nt g bs replace =>
    exact caching_counts hfree (cachePartialBlock_within r b nt g bs replace)
      (cachePartialBlock_stops h.stray r b nt g bs replace)
  | moveBlockHashes src dst =>
    exact caching_counts hfree (moveBlockHashes_within src dst)
      (moveBlockHashes_stops h.stray src dst)
  | evictBlocks ids =>
    exact caching_counts (P := fun _ _ => False) hfree (evictBlocks_within ids)
      (evictBlocks_stops s ids)
  | refreshCachedFreeBlocks entries =>
    rw [exec, ensures_map]
    refine (refreshCachedFreeBlocks_spec hfree entries).mono ?_ (fun _ _ hfalse => hfalse.elim)
    rintro _ t ⟨⟨free', -, hinv⟩, hcount⟩
    exact ⟨⟨free', hinv⟩, hcount⟩
  | resetPrefixCache =>
    refine caching_counts (P := fun _ _ => False) hfree resetPrefixCache_within ?_
    simp [Pool.resetPrefixCache, ensures_ite]

/-- One operation keeps the pool as its callers see it. -/
theorem PoolOp.exec_spec (h : PoolInv s held)
    (op : PoolOp n) (hop : Entitled held s op) :
    Ensures op.exec s
      (fun handed t => PoolInv t fun b => held b + handed.count b - op.released.count b)
      (fun e t => PoolInv t held ∧ Stops (op.Fits s) e) := by
  refine ((op.exec_within s).and (op.exec_counts h hop)).mono ?_ ?_
  · rintro handed t ⟨hsteps, hfree, hcount⟩
    refine ⟨hfree, noStrayCount_steps hsteps h.stray, fun b hb => ?_⟩
    rw [hcount.nullBlock] at hb
    have hle := hop b hb
    rw [hcount.refCnt, h.ledger b hb]
    omega
  · rintro e t ⟨hsteps, ⟨hfree, hcount⟩, hstops⟩
    refine ⟨⟨hfree, noStrayCount_steps hsteps h.stray, fun b hb => ?_⟩, hstops⟩
    rw [hcount.nullBlock] at hb
    rw [hcount.refCnt, h.ledger b hb, Int.add_zero]

/-- Whatever fails in a run, free list and counts agree with what the callers hold. -/
theorem Run.poolInv [NeZero n] (h : Run s held) : PoolInv s held := by
  induction h with
  | init enableCaching hashBlockSize enableEvents hinit =>
    have hnew := newPool_of_initPool hinit
    exact ⟨⟨_, hnew.free⟩, fun b _ => (hnew.blockHash b).2, fun b _ => hnew.refCnt b⟩
  | ok _ op hop handed hrun ih => exact (op.exec_spec ih hop).of_ok hrun
  | error _ op hop e hrun ih => exact ((op.exec_spec ih hop).of_error hrun).1

/-- In every state of every run the links spell out the non-null blocks
without references; `get_new_blocks` fails exactly when they do not suffice,
and leaves the pool as it is; and no operation raises a `RuntimeError`, nor
fails an assertion that its arguments meet. -/
theorem pool_representation [NeZero n] {s : BlockPool n} {held : Fin n → ℕ} (h : Run s held) :
    (∃ free, FreeListInv s free ∧ ∀ k,
      ((∃ m t, (getNewBlocks k).run s = .error (.valueError m) t) ↔ free.length < k) ∧
      ∀ e t, (getNewBlocks k).run s = .error e t → (∃ m, e = .valueError m) ∧ t = s) ∧
    ∀ op, Entitled held s op → ∀ e t, op.exec.run s = .error e t →
      (∀ m, e ≠ .runtimeError m) ∧ (op.Fits s → ∀ m, e ≠ .assertionError m) := by
  have hinv := h.poolInv
  obtain ⟨free, hfree⟩ := hinv.free
  refine ⟨⟨free, hfree, fun k => ⟨⟨?_, fun hk => ?_⟩, fun e t hrun => ?_⟩⟩, ?_⟩
  · rintro ⟨m, t, hrun⟩
    exact ((getNewBlocks_spec hfree k).of_error hrun).1
  · cases hrun : (getNewBlocks k).run s with
    | ok r t =>
      have hle := ((getNewBlocks_spec hfree k).of_ok hrun).1
      omega
    | error e t =>
      obtain ⟨-, -, rfl⟩ := (getNewBlocks_spec hfree k).of_error hrun
      exact ⟨_, t, rfl⟩
  · obtain ⟨-, rfl, rfl⟩ := (getNewBlocks_spec hfree k).of_error hrun
    exact ⟨⟨_, rfl⟩, rfl⟩
  · intro op hop e t hrun
    have hstops := ((op.exec_spec hinv hop).of_error hrun).2
    refine ⟨?_, ?_⟩
    · rintro m rfl
      exact hstops
    · rintro hfits m rfl
      exact hstops hfits

theorem pool_representation_one_taken :
    ∃ (s : BlockPool 3) (held : Fin 3 → ℕ), held 1 = 1 ∧ Run s held ∧
    (∃ free, FreeListInv s free ∧ ∀ k,
      ((∃ m t, (getNewBlocks k).run s = .error (.valueError m) t) ↔ free.length < k) ∧
      ∀ e t, (getNewBlocks k).run s = .error e t → (∃ m, e = .valueError m) ∧ t = s) ∧
    ∀ op, Entitled held s op → ∀ e t, op.exec.run s = .error e t →
      (∀ m, e ≠ .runtimeError m) ∧ (op.Fits s → ∀ m, e ≠ .assertionError m) := by
  obtain ⟨s₀, hinit, hnew⟩ := initPool_spec (n := 3) true 1 true
  have hfree := hnew.free
  obtain ⟨s, hrun⟩ : ∃ s, (getNewBlocks 1).run s₀ = .ok [1] s := by
    cases hrun : (getNewBlocks 1).run s₀ with
    | ok r t =>
      obtain ⟨-, rfl, -⟩ := (getNewBlocks_spec hfree 1).of_ok hrun
      exact ⟨t, rfl⟩
    | error e t => exact absurd ((getNewBlocks_spec hfree 1).of_error hrun).1 (by decide)
  have h := (Run.init true 1 true hinit).ok (.getNewBlocks 1) (fun b _ => Nat.zero_le _) [1] hrun
  exact ⟨s, _, rfl, h, pool_representation h⟩

def oneBlockRequest : Request :=
  { numPromptTokens := 1, promptTokenIds := some [7], outputTokenIds := [], allTokenIds := [7],
    promptEmbeds := none, mmFeatures := [], loraRequest := none, cacheSalt := none,
    blockHashes := [[1]] }

/-- Caching the same full block a second time fails an assertion, although
callers free and touch nothing. -/
theorem cache_full_blocks_twice :
    ∃ (s : BlockPool 2) (held : Fin 2 → ℕ) (op : PoolOp 2), Run s held ∧ Entitled held s op ∧
      ∃ m t, op.exec.run s = .error (.assertionError m) t := by
  have hinit := Run.init (n := 2) true 1 false rfl
  have htaken := hinit.ok (.getNewBlocks 1) (fun b _ => Nat.zero_le _) [1] rfl
  have hcached := htaken.ok (.cacheFullBlocks oneBlockRequest [1] 0 1 1 0 none)
    (fun b _ => Nat.zero_le _) [] rfl
  exact ⟨_, _, .cacheFullBlocks oneBlockRequest [1] 0 1 1 0 none, hcached,
    fun b _ => Nat.zero_le _, _, _, rfl⟩

end Vllm.PoolRuns
