import Vllm.HashGrowth
import Vllm.KvEvents

/-!
Store events against the hashes they announce. The scan over the multimodal
items runs at three places: the hasher restarts it at the last item, the event
of `cache_full_blocks` at the first one, and the event of `cache_partial_block`
at the last one again. They disagree in blocks in which an item other than the
last one lies.
-/
namespace Vllm.EventKeys

open Outcome BlockHashing BlockHashMap HashGrowth Pool PoolSteps KvEvents List

variable {H : CachingHash} {B i : ℕ} {r prompt : Request} {n : ℕ}

/-- The event of `cache_partial_block` lists the keys hashed for block `i`. -/
def PartialKeysSeen (B : ℕ) (prompt : Request) (i : ℕ) : Prop :=
  i ≠ prompt.numTokens / B → 0 < i → LastItemOnly B prompt i

/-- The keys of a partial event are those that were hashed exactly when the restart sees all items.
-/
theorem restart_eq_hashedKeys_iff (hB : 0 < B) (hitems : ItemsInPrompt prompt)
    (hgrows : Grows prompt r) :
    (generateBlockHashExtraKeys r (i * B) (i * B + B) (restartIdx i B)).1 =
      hashedKeys B prompt i ↔ PartialKeysSeen B prompt i := by
  rw [hgrows.generateBlockHashExtraKeys_eq]
  by_cases hi : i = prompt.numTokens / B
  · rw [hashedKeys, if_pos hi]
    exact ⟨fun _ h => absurd hi h, fun _ => rfl⟩
  · rw [hashedKeys_of_ne hB hitems hi, restart_eq_iff hB hitems]
    exact ⟨fun h _ => h, fun h => h hi⟩

theorem hashChain_getElem? (prev : Option BlockHash) (ks : List (Option (List ExtraKey)))
    (i j : ℕ) : (hashChain H B r prev i ks)[j]? =
    ks[j]?.map (hashBlockTokens H (if j = 0 then prev else (hashChain H B r prev i ks)[j - 1]?)
      (r.slice ((i + j) * B) ((i + j) * B + B))) := by
  induction ks generalizing prev i j with
  | nil => rfl
  | cons x ks ih =>
    cases j with
    | zero => rfl
    | succ j =>
      rw [hashChain, getElem?_cons_succ, ih, Nat.add_right_comm, Nat.add_assoc]
      cases j <;> rfl

def parentOf (r : Request) (i : ℕ) : Option BlockHash :=
  if i = 0 then none else r.blockHashes[i - 1]?

/-- Hashing the tokens of block `i` with the entry's keys gives the entry's
hash. For an injective hash function these are the keys that were hashed. -/
def Recomputes (H : CachingHash) (B : ℕ) (r : Request) (i : ℕ)
    (entry : BlockHash × Option (List ExtraKey)) : Prop :=
  hashBlockTokens H (parentOf r i) (r.slice (i * B) (i * B + B)) entry.2 = entry.1

/-- With an injective hash only the hashed keys give the hash of a block. -/
theorem recomputes_iff (hinj : Function.Injective H.hashFunction)
    (h : Hashed H B prompt r) {blockHash : BlockHash} (hi : r.blockHashes[i]? = some blockHash)
    (extraKeys : Option (List ExtraKey)) :
    Recomputes H B r i (blockHash, extraKeys) ↔ extraKeys = hashedKeys B prompt i := by
  have hchain := hashChain_getElem? (H := H) (B := B) (r := r) none
    ((List.range (r.numTokens / B)).map (hashedKeys B prompt)) 0 i
  rw [← show r.blockHashes = _ from h, hi, Nat.zero_add] at hchain
  obtain ⟨keys, hkeys, hhash⟩ := Option.map_eq_some_iff.mp hchain.symm
  obtain ⟨j, hj, rfl⟩ := Option.map_eq_some_iff.mp (getElem?_map ▸ hkeys)
  obtain rfl : i = j := by
    obtain ⟨hlt, hget⟩ := List.getElem?_eq_some_iff.mp hj
    rw [← hget, getElem_range]
  rw [← hhash]
  refine ⟨fun heq => (hashBlockTokens_inj hinj heq).2, ?_⟩
  rintro rfl
  rfl

section
variable {s : BlockPool n} (mask : Option (List Bool)) (nc blockSize : ℕ) (g : GroupId)
  (hashes : List BlockHash) (blocks : List (Fin n))

/-- The caching loop returns the hashes of the blocks it processes. -/
theorem cacheFullLoop_hashes (l : List (Fin n × ℕ)) :
    Ensures (cacheFullLoop hashes mask nc blockSize g l) s
      (fun new _ => new.map some = (processed s mask l).map fun entry => hashes[entry.2]?)
      (fun _ _ => True) := by
  induction l generalizing s with
  | nil => rfl
  | cons entry l ih =>
    obtain ⟨b, i⟩ := entry
    simp only [cacheFullLoop, ensures_bind, ensures_get, ensures_ite]
    refine ⟨fun hskip => ?_, fun hskip => ?_⟩
    · rw [processed_cons_of_skipped hskip]
      exact ih
    rw [processed_cons_of_kept hskip, ensures_expect]
    refine ⟨fun blockHash hhash => ?_, fun _ => trivial⟩
    refine (dropShorterHash_within (P := fun _ _ => True) _ b _ s).weaken fun _ t hst => ?_
    refine (insertBlockHash_steps (P := fun _ _ => True) _ _ trivial).weaken fun _ u htu => ?_
    refine ih.imp fun new _ hnew => ?_
    rw [processed_congr (hst.sameCounts.trans htu.sameCounts)] at hnew
    simp [hnew, hhash]

theorem storedIndices_spec (o m : ℕ) (t : BlockPool n) :
    Ensures (storedIndices s blocks mask nc (List.range' (nc + o) m)) t
      (fun indices u => u = t ∧ indices =
        (processed s mask (((blocks.drop (nc + o)).take m).zipIdx o)).map (nc + ·.2))
      (fun _ _ => True) := by
  induction m generalizing o with
  | zero => simp [storedIndices, processed]
  | succ m ih =>
    simp only [range'_succ, storedIndices, ensures_bind, ensures_expect]
    refine ⟨fun b hb => ?_, fun _ => trivial⟩
    have hdrop : (blocks.drop (nc + o)).take (m + 1) =
        b :: (blocks.drop (nc + (o + 1))).take m := by
      obtain ⟨hlt, rfl⟩ := List.getElem?_eq_some_iff.mp hb
      rw [drop_eq_getElem_cons hlt, take_succ_cons]
      rfl
    rw [hdrop, zipIdx_cons, ensures_ite, Nat.add_sub_cancel_left]
    refine ⟨fun hskip => ?_, fun hskip => ?_⟩
    · rw [processed_cons_of_skipped hskip]
      exact ih (o + 1)
    · rw [processed_cons_of_kept hskip, ensures_bind]
      refine (ih (o + 1)).imp ?_
      rintro indices _ ⟨rfl, rfl⟩
      exact ⟨rfl, rfl⟩

theorem parentBlockHash_spec (t : BlockPool n) : Ensures (parentBlockHash hashes nc) t
      (fun parent u => u = t ∧ parent = if nc = 0 then none else hashes[nc - 1]?)
      (fun _ _ => True) := by
  rw [parentBlockHash, ensures_ite, ensures_map, ensures_expect]
  refine ⟨fun hzero => ?_, fun hpos => ⟨fun parent hparent => ?_, fun _ => trivial⟩⟩
  · exact ⟨rfl, (if_pos hzero).symm⟩
  · exact ⟨rfl, hparent.symm.trans (if_neg hpos).symm⟩

theorem newlyCached_pairwise (nf : ℕ) :
    ((newlyCached s blocks nc nf mask).map (nc + ·.2)).Pairwise (· < ·) := by
  rw [pairwise_map, newlyCached]
  split_ifs
  · exact List.Pairwise.nil
  · set l := (blocks.take nf).drop nc with hl
    have hrange := pairwise_lt_range' (s := 0) (n := l.length)
    rw [← zipIdx_map_snd, pairwise_map] at hrange
    exact (hrange.imp fun hlt => by omega).filter _

variable (hon : s.enableKvCacheEvents = true) (hsize : s.hashBlockSize = B)
include hon hsize

/-- The event of `cache_full_blocks` names the blocks that were cached. -/
theorem cacheFullBlocks_event (blocks : List (Fin n)) {nf : ℕ} (hnew : nc < nf) :
    Ensures (cacheFullBlocks r blocks nc nf B g mask) s
      (fun _ u => ∃ hashes, hashes.map some =
          ((newlyCached s blocks nc nf mask).map (nc + ·.2)).map (r.blockHashes[·]?) ∧
        u.kvEventQueue.getLast? = some (buildBlockStoredEvent r hashes (parentOf r nc) (nc * B)
          (nf * B) B g (storedExtraKeys r B ((newlyCached s blocks nc nf mask).map (nc + ·.2))
            (.idx 0))))
      (fun _ _ => True) := by
  simp only [cacheFullBlocks, ensures_ite, ensures_bind, ensures_check, ensures_get]
  refine ⟨fun hold => absurd hnew hold.not_gt, fun _ => ⟨fun _ => ?_, fun _ => trivial⟩⟩
  refine (resolveBlockHashes_spec _ _ _ s).weaken ?_
  rintro _ s ⟨rfl, rfl⟩
  rw [cachedHashes, if_pos hsize.symm]
  refine ((cacheFullLoop_hashes mask nc B g _ _).and
    (cacheFullLoop_within _ mask nc B g _ _)).weaken ?_
  rintro new u ⟨hhashes, hsteps⟩
  rw [ensures_onlyIf]
  refine ⟨fun _ => ?_, fun hoff => absurd hon hoff⟩
  simp only [emitFullBlocksStored, ensures_bind, ensures_get, appendEvent, ensures_modify]
  refine (parentBlockHash_spec nc r.blockHashes u).imp ?_
  rintro _ u ⟨rfl, rfl⟩
  refine (storedIndices_spec mask nc blocks 0 (nf - nc) u).imp ?_
  rintro _ u ⟨rfl, rfl⟩
  have hcached : newlyCached s blocks nc nf mask =
      processed u mask (((blocks.drop nc).take (nf - nc)).zipIdx 0) := by
    rw [newlyCached, if_neg hnew.not_ge, drop_take, processed_congr hsteps.sameCounts]
  refine ⟨new, ?_, ?_⟩
  · rw [hhashes, newlyCached, if_neg hnew.not_ge, map_map]
    simp [Function.comp_def]
  · rw [hcached, getLast?_concat, parentOf, Nat.add_zero]

/-- The event of `cache_partial_block`, if it is due, is about the last hash block. -/
theorem cachePartialBlock_event (b : Fin n) (numTokens : ℕ) (replace : Bool) :
    Ensures (cachePartialBlock r b numTokens g blockSize replace) s
      (fun _ u => (∃ key, PartialStores s r b numTokens g replace key) →
        ∃ i blockHash, numTokens = i * B + B ∧ r.blockHashes[i]? = some blockHash ∧
          u.kvEventQueue.getLast? = some (partialStoredEvent r blockHash numTokens B g))
      (fun _ _ => True) := by
  subst hsize
  simp only [cachePartialBlock, getPartialBlockHash, ensures_bind, ensures_get, ensures_ite,
    ensures_pure, ensures_check, ensures_expect]
  refine ⟨fun hnull => ?_, fun _ => ⟨fun _ => ⟨fun _ => ⟨fun hmod => ⟨fun hpos => ⟨fun h hh => ?_,
    fun _ => trivial⟩, fun _ => trivial⟩, fun _ => trivial⟩, fun _ => trivial⟩, fun _ => trivial⟩⟩
  · rintro ⟨key, hnonnull, -⟩
    exact absurd (hnonnull.symm.trans hnull) Bool.false_ne_true
  have hindex : numTokens = (numTokens / s.hashBlockSize - 1) * s.hashBlockSize +
      s.hashBlockSize := by
    rw [← Nat.succ_mul, Nat.succ_eq_add_one, Nat.sub_add_cancel hpos.1,
      Nat.div_mul_cancel (Nat.dvd_of_mod_eq_zero hmod)]
  -- neither dropping nor inserting a key touches the event that comes last
  refine Ensures.of_forall (fun _ t => Ensures.of_forall (fun _ u => ?_) fun _ _ => trivial)
    fun _ _ => trivial
  rw [ensures_onlyIf, appendEvent, ensures_modify]
  refine ⟨fun _ _ => ⟨_, h, hindex, hh, getLast?_concat ..⟩, fun hnot => ?_⟩
  rintro ⟨key, -, hkey, hdue⟩
  obtain rfl : makeBlockHashWithGroupId h g = key := by
    simpa [partialKey, hh] using hkey
  exact absurd ⟨hon, hdue⟩ hnot
end

/-- The event of a partial block names the one hash block at its end. -/
theorem partialStoredEvent_eq (hB : 0 < B) (h : BlockHash) (i : ℕ) (g : GroupId) :
    partialStoredEvent r h (i * B + B) B g =
      .blockStored [h] (parentOf r i) (r.slice (i * B) (i * B + B)) B
        (r.loraRequest.map (·.adapterId)) mediumGpu (r.loraRequest.map (·.loraName))
        (some [(generateBlockHashExtraKeys r (i * B) (i * B + B) (restartIdx i B)).1]) g := by
  have hdiv : (i * B + B) / B = i + 1 := by
    rw [← Nat.succ_mul, Nat.mul_div_cancel _ hB]
  have hparent : (if 1 < i + 1 then r.blockHashes[i + 1 - 2]? else none) = parentOf r i := by
    cases i <;> simp [parentOf]
  simp only [partialStoredEvent, hdiv, hparent, Nat.add_sub_cancel, Nat.add_sub_cancel_left]
  rfl

end Vllm.EventKeys
