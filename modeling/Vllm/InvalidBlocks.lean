import Vllm.CacheManagers
import Vllm.PoolIndex

/-!
Failed KV loads. A connector reports blocks whose load failed; the scheduler
scans its requests for them, truncates the computed tokens of the affected ones
and, under the policy that fails requests, evicts blocks from the prefix cache.
A block that several requests share is handled by the first of them only, so
which keys go depends on how the tables overlap and on the order of the
requests. Models have a single cache group here, as in the source; logging is
left out.
-/
namespace Vllm.InvalidBlocks

open Outcome Pool CacheManagers PoolSteps PoolIndex List

variable {n : ℕ}

structure LoadScan (n : ℕ) where
  affectedReqIds : List RequestId
  totalAffectedTokens : ℕ
  blocksToEvict : List (Fin n)
  markedInvalidBlockIds : List (Fin n)

structure RequestScan (n : ℕ) extends LoadScan n where
  isAffected : Bool
  markedInvalidBlock : Bool
  numComputedTokens : ℕ

structure LoadFailure (n : ℕ) where
  blockSize : ℕ
  invalidBlockIds : List (Fin n)
  numScheduledTokens : RequestId → ℕ
  reqToBlocks : RequestId → List (Fin n)

namespace LoadFailure

variable (f : LoadFailure n)

def reqNumComputedTokens (r : CacheRequest) : ℕ :=
  r.numComputedTokens - f.numScheduledTokens r.requestId

def scannedBlocks (r : CacheRequest) : List (Fin n) :=
  (f.reqToBlocks r.requestId).take (cdiv (f.reqNumComputedTokens r) f.blockSize)

/-- The body of the loop over the blocks of a request. -/
def scanBlock (evictBlocks : Bool) (r : CacheRequest) (idx : ℕ) (blockId : Fin n)
    (scan : RequestScan n) : RequestScan n :=
  if blockId ∉ f.invalidBlockIds then
    scan
  else if blockId ∈ scan.markedInvalidBlockIds then
    { scan with isAffected := true }
  else if scan.markedInvalidBlock then
    { scan with
      isAffected := true
      markedInvalidBlockIds := blockId :: scan.markedInvalidBlockIds }
  else
    { isAffected := true
      markedInvalidBlockIds := blockId :: scan.markedInvalidBlockIds
      markedInvalidBlock := true
      numComputedTokens := idx * f.blockSize
      affectedReqIds := scan.affectedReqIds
      totalAffectedTokens :=
        scan.totalAffectedTokens + (f.reqNumComputedTokens r - idx * f.blockSize)
      blocksToEvict :=
        if evictBlocks then scan.blocksToEvict ++ (f.reqToBlocks r.requestId).drop idx
        else scan.blocksToEvict }

def scanBlocks (evictBlocks : Bool) (r : CacheRequest) :
    ℕ → List (Fin n) → RequestScan n → RequestScan n
  | _, [], scan => scan
  | idx, blockId :: blockIds, scan =>
    scanBlocks evictBlocks r (idx + 1) blockIds (f.scanBlock evictBlocks r idx blockId scan)

def scanRequest (evictBlocks : Bool) (r : CacheRequest) (scan : LoadScan n) :
    CacheRequest × LoadScan n :=
  -- A request all of whose invalid blocks are marked already keeps the tokens that were computed
  -- before the step.
  let last := f.scanBlocks evictBlocks r 0 (f.scannedBlocks r)
    { scan with
      isAffected := false, markedInvalidBlock := false
      numComputedTokens := r.numComputedTokens }
  if last.isAffected then
    let affectedReqIds := last.affectedReqIds ++ [r.requestId]
    if last.markedInvalidBlock then
      ({ r with numComputedTokens := last.numComputedTokens },
        { last.toLoadScan with affectedReqIds })
    else
      ({ r with numComputedTokens := f.reqNumComputedTokens r }, { last.toLoadScan with
          affectedReqIds
          totalAffectedTokens := last.totalAffectedTokens +
            (r.numComputedTokens - f.reqNumComputedTokens r) })
  else
    (r, last.toLoadScan)

def scanRequests (evictBlocks : Bool) (selected : CacheRequest → Bool) :
    List CacheRequest → LoadScan n → List CacheRequest × LoadScan n
  | [], scan => ([], scan)
  | r :: requests, scan =>
    let (r, scan) := if selected r then f.scanRequest evictBlocks r scan else (r, scan)
    let (requests, scan) := scanRequests evictBlocks selected requests scan
    (r :: requests, scan)

/-- `_update_requests_with_invalid_blocks` for the selected requests of a queue:
the queue with its updated requests, and what was collected. -/
def updateRequestsWithInvalidBlocks (evictBlocks : Bool) (selected : CacheRequest → Bool)
    (requests : List CacheRequest) : List CacheRequest × LoadScan n :=
  f.scanRequests evictBlocks selected requests ⟨[], 0, [], []⟩

end LoadFailure

structure LoadState (n : ℕ) where
  pool : BlockPool n
  running : List CacheRequest
  skippedWaiting : List CacheRequest
  failedRecvingKvReqIds : List RequestId

def handleInvalidBlocks (f : LoadFailure n) (recomputeKvLoadFailures : Bool) :
    EStateM Failure (LoadState n) (List RequestId) := do
  -- Asynchronous loads are not cached yet, so only running requests have blocks to evict.
  let s ← get
  let (skippedWaiting, asyncScan) :=
    f.updateRequestsWithInvalidBlocks false (·.status = .waitingForRemoteKvs) s.skippedWaiting
  let (running, syncScan) := f.updateRequestsWithInvalidBlocks true (fun _ => true) s.running
  set { s with running, skippedWaiting }
  if asyncScan.affectedReqIds = [] ∧ syncScan.affectedReqIds = [] then
    return []
  else
    onlyIf (syncScan.blocksToEvict ≠ [] ∧ recomputeKvLoadFailures = false) do
      zoom (fun s : LoadState n => s.pool) (fun s pool => { s with pool })
        (evictBlocks (syncScan.blocksToEvict.map Fin.val))
    if recomputeKvLoadFailures = false then
      return asyncScan.affectedReqIds ++ syncScan.affectedReqIds
    else
      modify fun s =>
        { s with failedRecvingKvReqIds := s.failedRecvingKvReqIds ++ asyncScan.affectedReqIds }
      return syncScan.affectedReqIds

/-! ### What the scan collects -/

namespace LoadFailure

variable (f : LoadFailure n)

def affects (r : CacheRequest) : Bool := ∃ b ∈ f.scannedBlocks r, b ∈ f.invalidBlockIds

def firstInvalid (r : CacheRequest) : Option ℕ :=
  (f.scannedBlocks r).findIdx? (· ∈ f.invalidBlockIds)

def firstUnmarked (marked : List (Fin n)) (blocks : List (Fin n)) : Option ℕ :=
  blocks.findIdx? fun b => b ∈ f.invalidBlockIds ∧ b ∉ marked

/-- The blocks that a request has evicted: its table from the first invalid
block on that no earlier request has in its scanned blocks. -/
def evictedBy (earlier : List CacheRequest) (r : CacheRequest) : List (Fin n) :=
  match (f.scannedBlocks r).findIdx? fun b =>
      b ∈ f.invalidBlockIds ∧ ∀ q ∈ earlier, b ∉ f.scannedBlocks q with
  | none => []
  | some idx => (f.reqToBlocks r.requestId).drop idx

variable (evictBlocks : Bool) (r : CacheRequest) (idx : ℕ) (blocks : List (Fin n))
  (scan : RequestScan n)

theorem scanBlock_marked (c : Fin n) (scan : RequestScan n) (b : Fin n) :
    b ∈ (f.scanBlock evictBlocks r idx c scan).markedInvalidBlockIds ↔
      b ∈ scan.markedInvalidBlockIds ∨ b ∈ f.invalidBlockIds ∧ b = c := by
  by_cases hinvalid : c ∈ f.invalidBlockIds
  · by_cases hmarked : c ∈ scan.markedInvalidBlockIds
    · rw [scanBlock, if_neg (not_not.mpr hinvalid), if_pos hmarked]
      exact ⟨.inl, fun h => h.elim id fun h => h.2 ▸ hmarked⟩
    · have hcons : (f.scanBlock evictBlocks r idx c scan).markedInvalidBlockIds =
          c :: scan.markedInvalidBlockIds := by
        rw [scanBlock, if_neg (not_not.mpr hinvalid), if_neg hmarked]
        split_ifs <;> rfl
      have hself : b = c → b ∈ f.invalidBlockIds := fun h => h ▸ hinvalid
      rw [hcons, mem_cons]
      tauto
  · rw [scanBlock, if_pos hinvalid]
    exact ⟨.inl, fun h => h.elim id fun h => absurd (h.2 ▸ h.1) hinvalid⟩

/-- The scan of a request marks its invalid blocks and no others. -/
theorem scanBlocks_marked (b : Fin n) :
    b ∈ (f.scanBlocks evictBlocks r idx blocks scan).markedInvalidBlockIds ↔
      b ∈ scan.markedInvalidBlockIds ∨ b ∈ f.invalidBlockIds ∧ b ∈ blocks := by
  induction blocks generalizing idx scan with
  | nil => simp [scanBlocks]
  | cons c blocks ih =>
    rw [scanBlocks, ih, scanBlock_marked, mem_cons]
    tauto

/-- Only the first unmarked invalid block has blocks evicted. -/
theorem scanBlocks_evict :
    (f.scanBlocks true r idx blocks scan).blocksToEvict = scan.blocksToEvict ++
      if scan.markedInvalidBlock then [] else
        match f.firstUnmarked scan.markedInvalidBlockIds blocks with
        | none => []
        | some j => (f.reqToBlocks r.requestId).drop (idx + j) := by
  induction blocks generalizing idx scan with
  | nil => simp [scanBlocks, firstUnmarked]
  | cons c blocks ih =>
    have hfirst : f.firstUnmarked scan.markedInvalidBlockIds (c :: blocks) =
        if c ∈ f.invalidBlockIds ∧ c ∉ scan.markedInvalidBlockIds then some 0
        else (f.firstUnmarked scan.markedInvalidBlockIds blocks).map (· + 1) := by
      simp [firstUnmarked, findIdx?_cons]
    rw [scanBlocks, ih, hfirst]
    by_cases hfresh : c ∈ f.invalidBlockIds ∧ c ∉ scan.markedInvalidBlockIds
    · rw [if_pos hfresh]
      by_cases hdone : scan.markedInvalidBlock
      · simp [scanBlock, hfresh, hdone]
      · simp [scanBlock, hfresh, hdone]
    · -- nothing is collected, and the first unmarked block lies further on
      have hsame : (f.scanBlock true r idx c scan).blocksToEvict = scan.blocksToEvict ∧
          (f.scanBlock true r idx c scan).markedInvalidBlock = scan.markedInvalidBlock ∧
          (f.scanBlock true r idx c scan).markedInvalidBlockIds = scan.markedInvalidBlockIds := by
        by_cases hinvalid : c ∈ f.invalidBlockIds
        · have hmarked : c ∈ scan.markedInvalidBlockIds := not_not.mp fun h => hfresh ⟨hinvalid, h⟩
          rw [scanBlock, if_neg (not_not.mpr hinvalid), if_pos hmarked]
          exact ⟨rfl, rfl, rfl⟩
        · rw [scanBlock, if_pos hinvalid]
          exact ⟨rfl, rfl, rfl⟩
      obtain ⟨hevict, hdone, hmarked⟩ := hsame
      rw [hevict, hdone, hmarked, if_neg hfresh]
      cases f.firstUnmarked scan.markedInvalidBlockIds blocks with
      | none => rfl
      | some j => simp only [Option.map_some, Nat.add_assoc, Nat.add_comm 1 j]

theorem scanBlocks_affected : (f.scanBlocks evictBlocks r idx blocks scan).isAffected = true ↔
      scan.isAffected = true ∨ ∃ b ∈ blocks, b ∈ f.invalidBlockIds := by
  induction blocks generalizing idx scan with
  | nil => simp [scanBlocks]
  | cons c blocks ih =>
    rw [scanBlocks, ih]
    by_cases hinvalid : c ∈ f.invalidBlockIds
    · have haffected : (f.scanBlock evictBlocks r idx c scan).isAffected = true := by
        unfold scanBlock
        rw [if_neg (not_not.mpr hinvalid)]
        split_ifs <;> rfl
      simp [haffected, hinvalid]
    · have hsame : f.scanBlock evictBlocks r idx c scan = scan := by
        rw [scanBlock, if_pos hinvalid]
      simp [hsame, hinvalid]

theorem scanBlocks_affectedReqIds :
    (f.scanBlocks evictBlocks r idx blocks scan).affectedReqIds = scan.affectedReqIds := by
  induction blocks generalizing idx scan with
  | nil => rfl
  | cons c blocks ih =>
    rw [scanBlocks, ih]
    unfold scanBlock
    split_ifs <;> rfl

/-- What the scan of one request adds. -/
theorem scanRequest_spec (scan : LoadScan n) :
    (∀ b, b ∈ (f.scanRequest true r scan).2.markedInvalidBlockIds ↔
      b ∈ scan.markedInvalidBlockIds ∨ b ∈ f.invalidBlockIds ∧ b ∈ f.scannedBlocks r) ∧
    (f.scanRequest true r scan).2.blocksToEvict = scan.blocksToEvict ++
      (match f.firstUnmarked scan.markedInvalidBlockIds (f.scannedBlocks r) with
        | none => []
        | some j => (f.reqToBlocks r.requestId).drop j) ∧
    (f.scanRequest true r scan).2.affectedReqIds =
      scan.affectedReqIds ++ (if f.affects r then [r.requestId] else []) := by
  set start : RequestScan n :=
    { scan with
      isAffected := false, markedInvalidBlock := false
      numComputedTokens := r.numComputedTokens } with hstart
  have hmarked := f.scanBlocks_marked true r 0 (f.scannedBlocks r) start
  have hevict := f.scanBlocks_evict r 0 (f.scannedBlocks r) start
  have haffected := f.scanBlocks_affected true r 0 (f.scannedBlocks r) start
  have hids := f.scanBlocks_affectedReqIds true r 0 (f.scannedBlocks r) start
  simp only [hstart, Nat.zero_add, Bool.false_eq_true, if_false, false_or] at hevict haffected
  unfold scanRequest
  rw [← hstart]
  dsimp only
  have hsame : (f.scanBlocks true r 0 (f.scannedBlocks r) start).isAffected = f.affects r :=
    Bool.eq_iff_iff.mpr (haffected.trans (decide_eq_true_iff).symm)
  rw [hsame]
  cases f.affects r with
  | true =>
    simp only [if_true]
    split
    · exact ⟨hmarked, hevict, by rw [hids]⟩
    · exact ⟨hmarked, hevict, by rw [hids]⟩
  | false => exact ⟨hmarked, hevict, by simpa using hids⟩

/-- With all earlier requests marked, exactly the blocks of `evictedBy` are
collected. -/
theorem scanRequests_evict (earlier requests : List CacheRequest) (scan : LoadScan n)
    (hmarked : ∀ b, b ∈ scan.markedInvalidBlockIds ↔
      b ∈ f.invalidBlockIds ∧ ∃ q ∈ earlier, b ∈ f.scannedBlocks q) (b : Fin n) :
    b ∈ (f.scanRequests true (fun _ => true) requests scan).2.blocksToEvict ↔
      b ∈ scan.blocksToEvict ∨ ∃ before r after, requests = before ++ r :: after ∧
        b ∈ f.evictedBy (earlier ++ before) r := by
  induction requests generalizing earlier scan with
  | nil => simp [scanRequests]
  | cons r requests ih =>
    obtain ⟨hmarked', hevict', -⟩ := f.scanRequest_spec r scan
    have hself : (match f.firstUnmarked scan.markedInvalidBlockIds (f.scannedBlocks r) with
        | none => []
        | some j => (f.reqToBlocks r.requestId).drop j) = f.evictedBy earlier r := by
      have hpred : (fun b => decide (b ∈ f.invalidBlockIds ∧ b ∉ scan.markedInvalidBlockIds)) =
          fun b => decide (b ∈ f.invalidBlockIds ∧ ∀ q ∈ earlier, b ∉ f.scannedBlocks q) := by
        funext c
        rw [decide_eq_decide, hmarked]
        refine and_congr_right fun hc => ?_
        simp [hc]
      rw [evictedBy, firstUnmarked, hpred]
    rw [hself] at hevict'
    have hrest := ih (earlier ++ [r]) (f.scanRequest true r scan).2 fun c => by
      rw [hmarked', hmarked]
      simp only [mem_append, mem_singleton, or_and_right, exists_or, exists_eq_left]
      exact and_or_left.symm
    simp only [scanRequests, if_true]
    rw [hrest, hevict', mem_append, or_assoc]
    refine or_congr_right ⟨?_, ?_⟩
    · rintro (hb | ⟨before, q, after, rfl, hb⟩)
      · exact ⟨[], r, requests, rfl, by simpa using hb⟩
      · exact ⟨r :: before, q, after, rfl, by simpa using hb⟩
    · rintro ⟨before, q, after, hsplit, hb⟩
      cases before with
      | nil =>
        obtain ⟨rfl, rfl⟩ := List.cons.inj hsplit
        exact .inl (by simpa using hb)
      | cons r' before =>
        obtain ⟨rfl, rfl⟩ := List.cons.inj hsplit
        exact .inr ⟨before, q, after, rfl, by simpa using hb⟩

/-- The affected requests are those with an invalid block among their scanned ones, in order. -/
theorem scanRequests_affectedReqIds (requests : List CacheRequest) (scan : LoadScan n) :
    (f.scanRequests true (fun _ => true) requests scan).2.affectedReqIds =
      scan.affectedReqIds ++ (requests.filter f.affects).map (·.requestId) := by
  induction requests generalizing scan with
  | nil => simp [scanRequests]
  | cons r requests ih =>
    simp only [scanRequests, if_true]
    rw [ih, (f.scanRequest_spec r scan).2.2, append_assoc, filter_cons]
    cases f.affects r <;> rfl

theorem affects_of_mem_evictedBy {earlier : List CacheRequest} {r : CacheRequest} {b : Fin n}
    (h : b ∈ f.evictedBy earlier r) : f.affects r := by
  unfold evictedBy at h
  split at h
  · exact absurd h not_mem_nil
  · next idx hidx =>
    obtain ⟨hlt, hinvalid, -⟩ := findIdx?_eq_some_iff_getElem.mp hidx
    exact decide_eq_true ⟨_, getElem_mem hlt, (of_decide_eq_true hinvalid).1⟩

def Evicts (running : List CacheRequest) (b : Fin n) : Prop :=
  ∃ before r after, running = before ++ r :: after ∧ b ∈ f.evictedBy before r

/-- The blocks to evict are those that some running request has evicted. -/
theorem mem_blocksToEvict_iff (running : List CacheRequest) (b : Fin n) :
    b ∈ (f.updateRequestsWithInvalidBlocks true (fun _ => true) running).2.blocksToEvict ↔
      f.Evicts running b := by
  have hscan := f.scanRequests_evict [] running ⟨[], 0, [], []⟩ (by simp) b
  simpa [Evicts, updateRequestsWithInvalidBlocks] using hscan

theorem affects_iff_firstInvalid : f.affects r = true ↔ (f.firstInvalid r).isSome := by
  simp [affects, firstInvalid, findIdx?_isSome]

end LoadFailure

/-! ### What is left in the prefix cache -/

/-- Eviction takes all keys from the given blocks and from no others. -/
theorem evictBlocks_keys (bs : List (Fin n)) {s : BlockPool n} (hs : IndexInv s) :
    Ensures (evictBlocks (bs.map Fin.val)) s
      (fun _ t => IndexInv t ∧ ∀ c, keysOf t c = if c ∈ bs then [] else keysOf s c)
      (fun _ _ => False) := by
  have hkeys : Ensures (evictBlocks (bs.map Fin.val)) s
      (fun _ t => ∀ c, keysOf t c = if c ∈ bs then [] else keysOf s c) (fun _ _ => False) := by
    clear hs
    induction bs generalizing s with
    | nil => exact fun c => by simp
    | cons b bs ih =>
      rw [evictBlocks, map_cons, forM_cons, ensures_bind, dif_pos b.isLt, ensures_modify]
      refine ih.imp (fun _ t ht c => ?_)
      rw [ht, keysOf_maybeEvictCachedBlock]
      by_cases hc : c = b <;> simp [hc]
  have hinv := evictBlocks_within (P := fun _ _ => False) (bs.map Fin.val) s
  refine (hinv.and hkeys).mono (fun _ t ht => ⟨?_, ht.2⟩) (fun _ _ h => h.2)
  exact (indexInv_steps ht.1.indexSteps hs fun _ _ _ _ _ h => h.elim).1

/-- The call returns, names every affected running request and evicts exactly
the collected blocks. -/
theorem handleInvalidBlocks_spec (f : LoadFailure n) {s : LoadState n} (hs : IndexInv s.pool) :
    Ensures (handleInvalidBlocks f false) s
      (fun failed t => IndexInv t.pool ∧
        (∀ r ∈ s.running, (f.firstInvalid r).isSome → r.requestId ∈ failed) ∧
        ∀ b, keysOf t.pool b = [] ↔ keysOf s.pool b = [] ∨ f.Evicts s.running b)
      (fun _ _ => False) := by
  have hevict := f.mem_blocksToEvict_iff s.running
  have hids := f.scanRequests_affectedReqIds s.running ⟨[], 0, [], []⟩
  rw [← LoadFailure.updateRequestsWithInvalidBlocks, nil_append] at hids
  simp only [handleInvalidBlocks, ensures_bind, ensures_get, ensures_set, ensures_ite,
    ensures_onlyIf]
  generalize f.updateRequestsWithInvalidBlocks false _ s.skippedWaiting = async
  generalize f.updateRequestsWithInvalidBlocks true _ s.running = sync at hevict hids
  have hfailed : ∀ r ∈ s.running, (f.firstInvalid r).isSome →
      r.requestId ∈ sync.2.affectedReqIds := by
    intro r hr hfirst
    rw [hids]
    refine mem_map_of_mem (mem_filter.mpr ⟨hr, ?_⟩)
    exact (f.affects_iff_firstInvalid r).mpr hfirst
  have hnone (hnil : sync.2.blocksToEvict = []) (b : Fin n) :
      keysOf s.pool b = [] ↔ keysOf s.pool b = [] ∨ f.Evicts s.running b := by
    rw [← hevict, hnil]
    simp
  refine ⟨fun hquiet => ⟨hs, fun r hr hfirst => ?_, hnone ?_⟩,
    fun _ => ⟨fun _ => ?_, fun hnil => ?_⟩⟩
  · simpa [hquiet.2] using hfailed r hr hfirst
  · -- a request with blocks to evict would be affected
    refine eq_nil_iff_forall_not_mem.mpr fun b hb => ?_
    obtain ⟨before, r, after, hsplit, hb⟩ := (hevict b).mp hb
    have hr : r ∈ s.running := by simp [hsplit]
    have hfirst := (f.affects_iff_firstInvalid r).mp (f.affects_of_mem_evictedBy hb)
    simpa [hquiet.2] using hfailed r hr hfirst
  · rw [ensures_zoom]
    refine (evictBlocks_keys _ hs).imp (fun _ t ht => ⟨fun _ => ⟨ht.1, ?_, fun b => ?_⟩, ?_⟩)
    · exact fun r hr hfirst => mem_append_right _ (hfailed r hr hfirst)
    · change keysOf t b = [] ↔ _
      rw [ht.2, ← hevict]
      split_ifs with hb <;> simp [hb]
    · exact fun h => absurd trivial h
  · refine ⟨fun _ => ⟨hs, ?_, hnone ?_⟩, fun h => absurd trivial h⟩
    · exact fun r hr hfirst => mem_append_right _ (hfailed r hr hfirst)
    · exact not_not.mp fun h => hnil ⟨h, trivial⟩

/-- Under the policy that fails requests, no block at or after the first invalid
block of an affected request can be hit again exactly when every such block
with a key is evicted for some request. -/
theorem affected_blocks_unkeyed_iff [NeZero n] (f : LoadFailure n) {s : LoadState n}
    (hs : PoolIndex.Reachable s.pool) :
    ∃ failed t, (handleInvalidBlocks f false).run s = .ok failed t ∧
      (∀ r ∈ s.running, (f.firstInvalid r).isSome → r.requestId ∈ failed) ∧
      ((∀ r ∈ s.running, ∀ idx, f.firstInvalid r = some idx →
          ∀ b ∈ (f.reqToBlocks r.requestId).drop idx,
            ∀ k, b ∉ t.pool.cachedBlockHashToBlock.blocksAt k) ↔
        ∀ r ∈ s.running, ∀ idx, f.firstInvalid r = some idx →
          ∀ b ∈ (f.reqToBlocks r.requestId).drop idx,
            (∃ k, b ∈ s.pool.cachedBlockHashToBlock.blocksAt k) → f.Evicts s.running b) := by
  have hinv := hs.indexInv
  obtain ⟨failed, t, hrun, ht, hfailed, hkeys⟩ := (handleInvalidBlocks_spec f hinv).exists_ok
  refine ⟨failed, t, hrun, hfailed, ?_⟩
  -- block by block: unkeyed after is unkeyed before, or evicted
  refine forall₂_congr fun r _ => forall₂_congr fun idx _ => forall₂_congr fun b _ => ?_
  have hbefore : (∃ k, b ∈ s.pool.cachedBlockHashToBlock.blocksAt k) ↔ keysOf s.pool b ≠ [] := by
    simp only [hinv.index_iff]
    exact ⟨fun ⟨k, hk⟩ => ne_nil_of_mem hk, exists_mem_of_ne_nil _⟩
  have hafter : (∀ k, b ∉ t.pool.cachedBlockHashToBlock.blocksAt k) ↔ keysOf t.pool b = [] := by
    simp only [ht.index_iff]
    exact eq_nil_iff_forall_not_mem.symm
  rw [hafter, hkeys, hbefore]
  tauto

/-! ### Two requests that share a failed block -/

def loadedRequest (requestId : RequestId) : CacheRequest where
  numPromptTokens := 2
  promptTokenIds := some [7, requestId]
  outputTokenIds := []
  allTokenIds := [7, requestId]
  promptEmbeds := none
  mmFeatures := []
  loraRequest := none
  cacheSalt := none
  blockHashes := [[0], [requestId.toUInt8]]
  requestId
  status := .running
  numComputedTokens := 2
  numInFlightTokens := 0
  sharedPrefixBoundary := 0

/-- The load of block 1 failed; requests 1 and 2 share it and have one block of
their own each. -/
def sharedFailure (n : ℕ) [NeZero n] : LoadFailure n where
  blockSize := 1
  invalidBlockIds := [1]
  numScheduledTokens := fun _ => 1
  reqToBlocks := fun r => if r = 1 then [1, 2] else [1, 3]

theorem exists_sharedPool :
    ∃ pool : BlockPool 4, PoolIndex.Reachable pool ∧ keysOf pool 2 ≠ [] ∧ keysOf pool 3 ≠ [] := by
  have hinit := PoolIndex.Reachable.init (n := 4) true 1 false rfl
  have htaken := hinit.step (.getNewBlocks 3) trivial rfl
  have hfirst := htaken.step
    (.cacheFullBlocks (loadedRequest 1).toRequest [1, 2] 0 2 1 0 none) rfl rfl
  have hsecond := hfirst.step
    (.cacheFullBlocks (loadedRequest 2).toRequest [1, 3] 1 2 1 0 none) rfl rfl
  exact ⟨_, hsecond, by decide, by decide⟩

/-- With the first request alone nothing is left. -/
theorem affected_blocks_unkeyed_alone :
    ∃ (pool : BlockPool 4) (failed : List RequestId) (t : LoadState 4), keysOf pool 2 ≠ [] ∧
      (handleInvalidBlocks (sharedFailure 4) false).run ⟨pool, [loadedRequest 1], [], []⟩ =
        .ok failed t ∧
      ∀ b ∈ ((sharedFailure 4).reqToBlocks 1).drop 0, ∀ k,
        b ∉ t.pool.cachedBlockHashToBlock.blocksAt k := by
  obtain ⟨pool, hpool, hkeys, -⟩ := exists_sharedPool
  obtain ⟨failed, t, hrun, -, hiff⟩ := affected_blocks_unkeyed_iff (sharedFailure 4)
    (s := ⟨pool, [loadedRequest 1], [], []⟩) hpool
  refine ⟨pool, failed, t, hkeys, hrun, ?_⟩
  refine hiff.mpr (fun r hr idx hidx b hb _ => ⟨[], r, [], ?_, ?_⟩) _ (mem_singleton_self _) 0 rfl
  · rw [mem_singleton.mp hr]
    rfl
  · obtain rfl := mem_singleton.mp hr
    obtain rfl : 0 = idx := Option.some.inj hidx
    exact hb

/-- The second request's own block keeps its key although the block before it
failed to load: the shared block was marked by the first request. -/
theorem shared_failure_leaves_key : ∃ (s : LoadState 4) (failed : List RequestId) (t : LoadState 4),
      PoolIndex.Reachable s.pool ∧
      (handleInvalidBlocks (sharedFailure 4) false).run s = .ok failed t ∧
      ∃ r ∈ s.running, (sharedFailure 4).firstInvalid r = some 0 ∧
        ∃ b ∈ ((sharedFailure 4).reqToBlocks r.requestId).drop 0,
          ∃ k, b ∈ t.pool.cachedBlockHashToBlock.blocksAt k := by
  obtain ⟨pool, hpool, -, hkeys⟩ := exists_sharedPool
  obtain ⟨failed, t, hrun, ht, -, hleft⟩ := (handleInvalidBlocks_spec (sharedFailure 4)
    (s := ⟨pool, [loadedRequest 1, loadedRequest 2], [], []⟩) hpool.indexInv).exists_ok
  have hkept : keysOf t.pool 3 ≠ [] := by
    rw [ne_eq, hleft, not_or]
    refine ⟨hkeys, fun hevicts => ?_⟩
    have hout : (3 : Fin 4) ∉
        ((sharedFailure 4).updateRequestsWithInvalidBlocks true (fun _ => true)
        [loadedRequest 1, loadedRequest 2]).2.blocksToEvict := by decide
    exact hout (((sharedFailure 4).mem_blocksToEvict_iff _ _).mpr hevicts)
  obtain ⟨k, hk⟩ := exists_mem_of_ne_nil _ hkept
  exact ⟨_, failed, t, hpool, hrun, loadedRequest 2, by simp, rfl, 3, by decide, k,
    (ht.index_iff k 3).mpr hk⟩

end Vllm.InvalidBlocks
