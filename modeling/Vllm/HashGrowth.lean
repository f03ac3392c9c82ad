import Mathlib.Data.Countable.Basic
import Mathlib.Data.List.Range
import Mathlib.Logic.Equiv.List
import Mathlib.Tactic.DeriveCountable
import Mathlib.Tactic.Ring
import Vllm.Pool

/-!
Growing a request against hashing it from scratch. `hashesFromScratch` hashes
block `i` with every multimodal item that overlaps it; the request hashes
incrementally and, once a block exists, restarts its scan at the last item.
The two agree as long as the restart cannot miss an item, and the exact
condition is a property of the prompt's last, unfinished block.
-/
namespace Vllm.HashGrowth

open BlockHashing Pool List

variable {i e s k : ℕ} {fs : List MultiModalFeatureSpec} {r' : Request}

abbrev itemEnd (f : MultiModalFeatureSpec) : ℕ := f.mmPosition.offset + f.mmPosition.length

theorem offset_le_itemEnd (f : MultiModalFeatureSpec) : f.mmPosition.offset ≤ itemEnd f :=
  Nat.le_add_right _ _

def overlapping (r : Request) (startTokenIdx endTokenIdx : ℕ) : List MultiModalFeatureSpec :=
  r.mmFeatures.filter fun f => f.mmPosition.offset < endTokenIdx ∧ startTokenIdx < itemEnd f

def itemKey (startTokenIdx : ℕ) (f : MultiModalFeatureSpec) : ExtraKey :=
  .item f.identifier ((f.mmPosition.offset : ℤ) - startTokenIdx)

def blockExtraKeys (B : ℕ) (r : Request) (i : ℕ) : Option (List ExtraKey) :=
  assembleExtraKeys r (i * B) (i * B + B)
    ((overlapping r (i * B) (i * B + B)).map (itemKey (i * B)))

def chainedHash (H : CachingHash) (B : ℕ) (r : Request) : ℕ → BlockHash
  | 0 => hashBlockTokens H none (r.slice 0 B) (blockExtraKeys B r 0)
  | i + 1 =>
    hashBlockTokens H (some (chainedHash H B r i)) (r.slice ((i + 1) * B) ((i + 1) * B + B))
      (blockExtraKeys B r (i + 1))

def hashesFromScratch (H : CachingHash) (B : ℕ) (r : Request) : List BlockHash :=
  (List.range (r.numTokens / B)).map (chainedHash H B r)

variable {r : Request} {mmIdx : MmIdx}

theorem hashesFromScratch_getElem? {H : CachingHash} {B : ℕ} (hi : i < r.numTokens / B) :
    (hashesFromScratch H B r)[i]? = some (chainedHash H B r i) := by
  rw [hashesFromScratch, getElem?_map, getElem?_range hi]
  rfl

/-- Items are sorted and do not overlap each other. -/
def ItemsOrdered (items : List MultiModalFeatureSpec) : Prop :=
  items.Pairwise fun f g => itemEnd f ≤ g.mmPosition.offset

theorem ItemsOrdered.itemEnd_le {f g : MultiModalFeatureSpec}
    (h : ItemsOrdered (f :: fs)) (hg : g ∈ fs) : itemEnd f ≤ g.mmPosition.offset :=
  (pairwise_cons.mp h).1 g hg

theorem filter_eq_nil_of_offset
    (h : ∀ g ∈ fs, e ≤ g.mmPosition.offset) :
    fs.filter (fun f => f.mmPosition.offset < e ∧ s < itemEnd f) = [] := by
  rw [filter_eq_nil_iff]
  intro g hg
  have := h g hg
  simp only [decide_eq_true_eq, not_and]
  omega

/-- Over ordered items the scan finds exactly the overlapping ones. -/
theorem scanMmItems_keys
    (hord : ItemsOrdered fs) (i : ℕ) :
    (scanMmItems s e fs i).1 =
      (fs.filter fun f => f.mmPosition.offset < e ∧ s < itemEnd f).map (itemKey s) := by
  induction fs generalizing i with
  | nil => rfl
  | cons f fs ih =>
    have htail : ItemsOrdered fs := (pairwise_cons.mp hord).2
    by_cases hreach : f.mmPosition.offset < e
    · by_cases hpast : itemEnd f ≤ s
      · have hno : ¬ (f.mmPosition.offset < e ∧ s < itemEnd f) := by omega
        rw [filter_cons_of_neg (by simpa using hno)]
        simp only [scanMmItems, if_pos hreach, if_pos hpast]
        exact ih htail (i + 1)
      · have hyes : f.mmPosition.offset < e ∧ s < itemEnd f := by omega
        rw [filter_cons_of_pos (by simpa using hyes), map_cons]
        by_cases hdone : itemEnd f ≤ e
        · simp only [scanMmItems, if_pos hreach, if_neg hpast, if_pos hdone]
          rw [ih htail (i + 1)]
          rfl
        · have hrest : ∀ g ∈ fs, e ≤ g.mmPosition.offset := by
            intro g hg
            have := hord.itemEnd_le hg
            omega
          simp only [scanMmItems, if_pos hreach, if_neg hpast, if_neg hdone]
          rw [filter_eq_nil_of_offset hrest]
          rfl
    · have hall : ∀ g ∈ f :: fs, e ≤ g.mmPosition.offset := by
        intro g hg
        rcases mem_cons.mp hg with rfl | hg
        · omega
        · have := hord.itemEnd_le hg
          have := offset_le_itemEnd f
          omega
      simp only [scanMmItems, if_neg hreach]
      rw [filter_eq_nil_of_offset hall]
      rfl

/-- The scan leaves behind only items that end inside the block. -/
theorem scanMmItems_next (hse : s < e) (fs : List MultiModalFeatureSpec) (i : ℕ) :
    ∃ k, (scanMmItems s e fs i).2 = i + k ∧ ∀ f ∈ fs.take k, itemEnd f ≤ e := by
  induction fs generalizing i with
  | nil => exact ⟨0, rfl, by simp⟩
  | cons f fs ih =>
    obtain ⟨k, hk, hall⟩ := ih (i + 1)
    by_cases hreach : f.mmPosition.offset < e
    · by_cases hpast : itemEnd f ≤ s
      · refine ⟨k + 1, ?_, ?_⟩
        · simp only [scanMmItems, if_pos hreach, if_pos hpast]
          omega
        · intro g hg
          rcases mem_cons.mp (by simpa using hg) with rfl | hg
          · omega
          · exact hall g hg
      · by_cases hdone : itemEnd f ≤ e
        · refine ⟨k + 1, ?_, ?_⟩
          · simp only [scanMmItems, if_pos hreach, if_neg hpast, if_pos hdone]
            omega
          · intro g hg
            rcases mem_cons.mp (by simpa using hg) with rfl | hg
            · exact hdone
            · exact hall g hg
        · refine ⟨0, ?_, by simp⟩
          simp only [scanMmItems, if_pos hreach, if_neg hpast, if_neg hdone]
          rfl
    · refine ⟨0, ?_, by simp⟩
      simp only [scanMmItems, if_neg hreach]
      rfl

def MmIdx.position (items : List MultiModalFeatureSpec) : MmIdx → ℕ
  | .last => items.length - 1
  | .idx i => i

/-- No item before the index reaches past token `s`. -/
def Covers (r : Request) (s : ℕ) (mmIdx : MmIdx) : Prop :=
  ∀ f ∈ r.mmFeatures.take (MmIdx.position r.mmFeatures mmIdx), itemEnd f ≤ s

theorem Covers.mono {t : ℕ} (h : Covers r s mmIdx) (hst : s ≤ t) : Covers r t mmIdx :=
  fun f hf => (h f hf).trans hst

theorem covers_idx_zero (r : Request) (s : ℕ) : Covers r s (.idx 0) := by
  simp [Covers, MmIdx.position]

/-- Of ordered items none reaches past the last one. -/
theorem itemEnd_le_last {items : List MultiModalFeatureSpec} (hord : ItemsOrdered items)
    {lastItem : MultiModalFeatureSpec} (hlast : items.getLast? = some lastItem)
    {f : MultiModalFeatureSpec} (hf : f ∈ items) : itemEnd f ≤ itemEnd lastItem := by
  obtain ⟨init, rfl⟩ := getLast?_eq_some_iff.mp hlast
  rcases mem_append.mp hf with hf | hf
  · have hle := (pairwise_append.mp hord).2.2 f hf lastItem (mem_singleton_self _)
    exact hle.trans (offset_le_itemEnd lastItem)
  · rw [mem_singleton.mp hf]

/-- The generated multimodal keys are those of the overlapping items from the
index on. -/
theorem genMmExtraHashKeys_fst (hord : ItemsOrdered r.mmFeatures) (mmIdx : MmIdx) :
    (genMmExtraHashKeys r s e mmIdx).1 =
      ((r.mmFeatures.drop (MmIdx.position r.mmFeatures mmIdx)).filter
        fun f => f.mmPosition.offset < e ∧ s < itemEnd f).map (itemKey s) := by
  unfold genMmExtraHashKeys
  cases hlast : r.mmFeatures.getLast? with
  | none =>
    have hnil : r.mmFeatures = [] := getLast?_eq_none_iff.mp hlast
    simp [hnil]
  | some lastItem =>
    simp only
    by_cases hpast : itemEnd lastItem ≤ s
    · have hnone : (r.mmFeatures.drop (MmIdx.position r.mmFeatures mmIdx)).filter
          (fun f => f.mmPosition.offset < e ∧ s < itemEnd f) = [] := by
        rw [filter_eq_nil_iff]
        intro f hf
        have := itemEnd_le_last hord hlast (mem_of_mem_drop hf)
        simp only [decide_eq_true_eq, not_and]
        omega
      rw [if_pos hpast, hnone]
      rfl
    · rw [if_neg hpast]
      exact scanMmItems_keys (List.Pairwise.drop hord) _

/-- From a covering index the generated multimodal keys are those of all
overlapping items, and the next index covers the next block. -/
theorem genMmExtraHashKeys_eq (hord : ItemsOrdered r.mmFeatures) (hse : s < e)
    (hcov : Covers r s mmIdx) :
    (genMmExtraHashKeys r s e mmIdx).1 = (overlapping r s e).map (itemKey s) ∧
      Covers r e (genMmExtraHashKeys r s e mmIdx).2 := by
  refine ⟨?_, ?_⟩
  · set i := MmIdx.position r.mmFeatures mmIdx with hi
    have hskip : (r.mmFeatures.take i).filter
        (fun f => f.mmPosition.offset < e ∧ s < itemEnd f) = [] := by
      rw [filter_eq_nil_iff]
      intro f hf
      have := hcov f hf
      simp only [decide_eq_true_eq, not_and]
      omega
    rw [genMmExtraHashKeys_fst hord, overlapping, ← nil_append (List.filter _ (List.drop i _)),
      ← hskip, ← filter_append, take_append_drop]
  · unfold genMmExtraHashKeys
    cases hlast : r.mmFeatures.getLast? with
    | none => exact hcov.mono hse.le
    | some lastItem =>
      simp only
      split_ifs with hpast
      · exact hcov.mono hse.le
      · set i := MmIdx.position r.mmFeatures mmIdx with hi
        obtain ⟨k, hk, hpassed⟩ := scanMmItems_next hse (r.mmFeatures.drop i) i
        show Covers r e (.idx (scanMmItems s e (r.mmFeatures.drop i) i).2)
        intro f hf
        rw [hk, MmIdx.position, take_add] at hf
        rcases mem_append.mp hf with hf | hf
        · exact (hcov f hf).trans hse.le
        · exact hpassed f hf

def parentHash (H : CachingHash) (B : ℕ) (r : Request) : ℕ → Option BlockHash
  | 0 => none
  | i + 1 => some (chainedHash H B r i)

theorem chainedHash_eq (H : CachingHash) (B : ℕ) (r : Request) (i : ℕ) :
    chainedHash H B r i = hashBlockTokens H (parentHash H B r i) (r.slice (i * B) (i * B + B))
      (blockExtraKeys B r i) := by
  cases i with
  | zero => simp [chainedHash, parentHash]
  | succ i => rfl

section
variable {H : CachingHash} {B : ℕ} {r : Request}

theorem slice_congr (h : r'.allTokenIds.take k = r.allTokenIds.take k) (he : e ≤ k) :
    r'.slice s e = r.slice s e := by
  have htake := congrArg (List.take e) h
  rw [take_take, take_take, Nat.min_eq_left he] at htake
  rw [Request.slice, Request.slice, htake]

def hashChain (H : CachingHash) (B : ℕ) (r : Request) (prev : Option BlockHash) (i : ℕ) :
    List (Option (List ExtraKey)) → List BlockHash
  | [] => []
  | extraKeys :: rest =>
    let blockHash := hashBlockTokens H prev (r.slice (i * B) (i * B + B)) extraKeys
    blockHash :: hashChain H B r (some blockHash) (i + 1) rest

theorem hashBlockTokens_inj (hinj : Function.Injective H.hashFunction)
    {p q : Option BlockHash} {t t' : List ℕ} {x x' : Option (List ExtraKey)}
    (h : hashBlockTokens H p t x = hashBlockTokens H q t' x') : t = t' ∧ x = x' := by
  have hin := hinj h
  simp only [HashInput.block.injEq] at hin
  exact hin.2

section
variable (prev : Option BlockHash) (ks ls : List (Option (List ExtraKey)))

theorem hashChain_length (i : ℕ) : (hashChain H B r prev i ks).length = ks.length := by
  induction ks generalizing prev i with
  | nil => rfl
  | cons x ks ih => rw [hashChain, length_cons, length_cons, ih]

theorem hashChain_append (i : ℕ) : hashChain H B r prev i (ks ++ ls) = hashChain H B r prev i ks ++
      hashChain H B r ((hashChain H B r prev i ks).getLast?.or prev) (i + ks.length) ls := by
  induction ks generalizing prev i with
  | nil => rfl
  | cons x ks ih =>
    have hparent (h : BlockHash) (l : List BlockHash) :
        (h :: l).getLast?.or prev = l.getLast?.or (some h) := by
      rw [getLast?_cons]
      cases l.getLast? <;> rfl
    simp only [cons_append, hashChain, ih, hparent, length_cons]
    rw [Nat.add_right_comm, Nat.add_assoc]

/-- A chain depends only on the tokens of its blocks. -/
theorem hashChain_congr (i : ℕ) (htake : r'.allTokenIds.take k = r.allTokenIds.take k)
    (hk : (i + ks.length) * B ≤ k) :
    hashChain H B r' prev i ks = hashChain H B r prev i ks := by
  induction ks generalizing prev i with
  | nil => rfl
  | cons x ks ih =>
    rw [length_cons, Nat.add_comm ks.length, ← Nat.add_assoc] at hk
    have hblock : i * B + B ≤ k := by
      have := Nat.mul_le_mul_right B (Nat.le_add_right (i + 1) ks.length)
      rw [Nat.add_mul i, Nat.one_mul] at this
      exact this.trans hk
    simp only [hashChain, slice_congr htake hblock, ih _ (i + 1) hk]

/-- With an injective hash a chain determines the keys of its blocks. -/
theorem hashChain_inj (hinj : Function.Injective H.hashFunction) (i : ℕ)
    (h : hashChain H B r prev i ks = hashChain H B r prev i ls) : ks = ls := by
  induction ks generalizing prev i ls with
  | nil => cases ls with
    | nil => rfl
    | cons y ls => cases h
  | cons x ks ih => cases ls with
    | nil => cases h
    | cons y ls =>
      obtain ⟨hhead, htail⟩ := List.cons.inj h
      rw [hhead] at htail
      rw [(hashBlockTokens_inj hinj hhead).2, ih _ _ _ htail]
end

theorem getLast?_map_range (k : ℕ) :
    ((List.range k).map (chainedHash H B r)).getLast? = parentHash H B r k := by
  cases k with
  | zero => rfl
  | succ k => simp [range_succ, parentHash]

/-- Hashing from scratch is the chain over all keys of each block. -/
theorem map_chainedHash_eq_chain (k : ℕ) : (List.range k).map (chainedHash H B r) =
    hashChain H B r none 0 ((List.range k).map (blockExtraKeys B r)) := by
  induction k with
  | zero => rfl
  | succ k ih =>
    rw [range_succ, map_append, map_append, hashChain_append, ← ih,
      getLast?_map_range, Option.or_none, Nat.zero_add, length_map, length_range]
    simp only [map_cons, map_nil, hashChain, chainedHash_eq]

def restartIdx (k B : ℕ) : MmIdx := if 0 < k * B then .last else .idx 0

/-- The hashing loop hashes each block with the keys a store event would list. -/
theorem hashLoop_eq_chain (hB : 0 < B) (rounds i : ℕ) (hrounds : r.numTokens / B - i ≤ rounds)
    (mmIdx : MmIdx) (prev : Option BlockHash) :
    hashLoop H B r rounds (i * B) mmIdx prev = hashChain H B r prev i
      (storedExtraKeys r B (List.range' i (r.numTokens / B - i)) mmIdx) := by
  induction rounds generalizing i mmIdx prev with
  | zero =>
    rw [Nat.le_zero.mp hrounds]
    rfl
  | succ rounds ih =>
    have hmul : i * B + B = (i + 1) * B := by ring
    by_cases hfull : r.numTokens < i * B + B
    · have hlt : r.numTokens / B < i + 1 := (Nat.div_lt_iff_lt_mul hB).mpr (hmul ▸ hfull)
      have hzero : r.numTokens / B - i = 0 := by omega
      rw [hzero, hashLoop, if_pos hfull]
      rfl
    · have hle : i + 1 ≤ r.numTokens / B :=
        (Nat.le_div_iff_mul_le hB).mpr (hmul ▸ not_lt.mp hfull)
      have hsucc : r.numTokens / B - i = (r.numTokens / B - (i + 1)) + 1 := by omega
      rw [hashLoop, if_neg hfull, hsucc]
      simp only [range'_succ, storedExtraKeys, hashChain]
      rw [hmul, ih (i + 1) (by omega)]

/-- The hasher continues the chain behind the blocks that are hashed already. -/
theorem requestBlockHasher_eq_chain (hB : 0 < B) (hk : r.blockHashes.length = k) :
    requestBlockHasher H B r = hashChain H B r r.blockHashes.getLast? k
      (storedExtraKeys r B (List.range' k (r.numTokens / B - k)) (restartIdx k B)) := by
  have hrounds : r.numTokens / B - k ≤ r.numTokens :=
    (Nat.sub_le _ _).trans (Nat.div_le_self _ _)
  rw [← hashLoop_eq_chain hB _ k hrounds, requestBlockHasher, hk]
  refine ite_eq_right_iff.mpr fun hfull => ?_
  cases hN : r.numTokens with
  | zero => rfl
  | succ rounds => rw [hashLoop, if_pos (by omega)]

/-- Over increasing blocks a covering scan lists all keys of each block. -/
theorem storedExtraKeys_eq (hB : 0 < B) (hord : ItemsOrdered r.mmFeatures) (l : List ℕ)
    (hl : l.Pairwise (· < ·)) (mmIdx : MmIdx) (hcov : ∀ i ∈ l, Covers r (i * B) mmIdx) :
    storedExtraKeys r B l mmIdx = l.map (blockExtraKeys B r) := by
  induction l generalizing mmIdx with
  | nil => rfl
  | cons i l ih =>
    obtain ⟨hlater, hl⟩ := pairwise_cons.mp hl
    obtain ⟨hkeys, hnext⟩ := genMmExtraHashKeys_eq hord (e := i * B + B) (by omega)
      (hcov i mem_cons_self)
    have htail : ∀ j ∈ l, Covers r (j * B) (genMmExtraHashKeys r (i * B) (i * B + B) mmIdx).2 := by
      intro j hj
      refine hnext.mono ?_
      rw [← Nat.succ_mul]
      exact Nat.mul_le_mul_right B (hlater j hj)
    rw [map_cons, ← ih hl _ htail, blockExtraKeys, ← hkeys]
    rfl
end

/-- Everything block hashes depend on besides the tokens is the same. -/
structure SameKeys (r r' : Request) : Prop where
  mmFeatures : r'.mmFeatures = r.mmFeatures
  loraRequest : r'.loraRequest = r.loraRequest
  cacheSalt : r'.cacheSalt = r.cacheSalt
  promptEmbeds : r'.promptEmbeds = r.promptEmbeds

variable {r : Request} (H : CachingHash) {B : ℕ}

section
variable (h : SameKeys r r')
include h

theorem SameKeys.assembleExtraKeys_eq (s e : ℕ) (keys : List ExtraKey) :
    assembleExtraKeys r' s e keys = assembleExtraKeys r s e keys := by
  have hlora : genLoraExtraHashKeys r' = genLoraExtraHashKeys r := by
    rw [genLoraExtraHashKeys, genLoraExtraHashKeys, h.loraRequest]
  have hsalt : genCacheSaltKeys r' s = genCacheSaltKeys r s := by
    rw [genCacheSaltKeys, genCacheSaltKeys, h.cacheSalt]
  have hembeds : genPromptEmbedsExtraHashKeys r' s e = genPromptEmbedsExtraHashKeys r s e := by
    rw [genPromptEmbedsExtraHashKeys, genPromptEmbedsExtraHashKeys, h.promptEmbeds]
  rw [assembleExtraKeys, assembleExtraKeys, hlora, hsalt, hembeds]

theorem SameKeys.generateBlockHashExtraKeys_eq (s e : ℕ) (mmIdx : MmIdx) :
    generateBlockHashExtraKeys r' s e mmIdx = generateBlockHashExtraKeys r s e mmIdx := by
  simp only [generateBlockHashExtraKeys, genMmExtraHashKeys, h.mmFeatures, h.assembleExtraKeys_eq]

theorem SameKeys.blockExtraKeys_eq (B i : ℕ) : blockExtraKeys B r' i = blockExtraKeys B r i := by
  rw [blockExtraKeys, blockExtraKeys, overlapping, overlapping, h.mmFeatures,
    h.assembleExtraKeys_eq]

/-- Hashes do not depend on the tokens behind their blocks. -/
theorem SameKeys.map_range_congr (H : CachingHash)
    (htake : r'.allTokenIds.take (k * B) = r.allTokenIds.take (k * B)) :
    (List.range k).map (chainedHash H B r') = (List.range k).map (chainedHash H B r) := by
  rw [map_chainedHash_eq_chain, map_chainedHash_eq_chain, funext (h.blockExtraKeys_eq B)]
  refine hashChain_congr _ _ 0 htake ?_
  rw [Nat.zero_add, length_map, length_range]

theorem SameKeys.hashesFromScratch_eq (H : CachingHash) (B : ℕ)
    (htokens : r'.allTokenIds = r.allTokenIds) :
    hashesFromScratch H B r' = hashesFromScratch H B r := by
  rw [hashesFromScratch, Request.numTokens, htokens]
  exact h.map_range_congr H (by rw [htokens])
end

/-- `r'` is `r` with more tokens; hashes may differ. -/
structure Grows (r r' : Request) : Prop extends SameKeys r r' where
  tokens : r.allTokenIds <+: r'.allTokenIds

theorem Grows.refl (r : Request) : Grows r r := ⟨⟨rfl, rfl, rfl, rfl⟩, prefix_rfl⟩

theorem Grows.trans {r s t : Request} (h : Grows r s) (h' : Grows s t) : Grows r t where
  mmFeatures := h'.mmFeatures.trans h.mmFeatures
  loraRequest := h'.loraRequest.trans h.loraRequest
  cacheSalt := h'.cacheSalt.trans h.cacheSalt
  promptEmbeds := h'.promptEmbeds.trans h.promptEmbeds
  tokens := h.tokens.trans h'.tokens

theorem Grows.numTokens_le (h : Grows r r') : r.numTokens ≤ r'.numTokens :=
  h.tokens.length_le

theorem Grows.take_eq (h : Grows r r') (hk : k ≤ r.numTokens) :
    r'.allTokenIds.take k = r.allTokenIds.take k := by
  obtain ⟨rest, hrest⟩ := h.tokens
  rw [← hrest, take_append_of_le_length hk]

theorem Grows.map_range_eq (h : Grows r r') (H : CachingHash) (hk : k ≤ r.numTokens / B) :
    (List.range k).map (chainedHash H B r') = (List.range k).map (chainedHash H B r) :=
  h.map_range_congr H
    (h.take_eq ((Nat.mul_le_mul_right B hk).trans (Nat.div_mul_le_self _ _)))

def appendTokens (H : CachingHash) (B : ℕ) (r : Request) (tokenIds : List ℕ) : Request :=
  appendOutputTokenIds (some (requestBlockHasher H B)) r tokenIds

def grow (H : CachingHash) (B : ℕ) (r : Request) (calls : List (List ℕ)) : Request :=
  calls.foldl (appendTokens H B) r

theorem appendTokens_grows (B : ℕ) (r : Request) (tokenIds : List ℕ) :
    Grows r (appendTokens H B r tokenIds) :=
  ⟨⟨rfl, rfl, rfl, rfl⟩, prefix_append _ _⟩

theorem grow_grows (B : ℕ) (r : Request) (calls : List (List ℕ)) : Grows r (grow H B r calls) := by
  induction calls generalizing r with
  | nil => exact Grows.refl r
  | cons tokenIds calls ih =>
    exact (appendTokens_grows H B r tokenIds).trans (ih (appendTokens H B r tokenIds))

structure ItemsInPrompt (r : Request) : Prop where
  ordered : ItemsOrdered r.mmFeatures
  inside : ∀ f ∈ r.mmFeatures, itemEnd f ≤ r.numTokens

/-- The items that reach into the prompt's last, unfinished block. -/
def tailItems (B : ℕ) (r : Request) : List MultiModalFeatureSpec :=
  r.mmFeatures.filter fun f => r.numTokens / B * B < itemEnd f

/-- The restart sees every item of the prompt's unfinished block: there is no
earlier block, or there is at most one such item. -/
def TailItemsSeen (B : ℕ) (r : Request) : Prop :=
  r.numTokens < B ∨ (tailItems B r).length ≤ 1

instance (B : ℕ) (r : Request) : Decidable (TailItemsSeen B r) :=
  inferInstanceAs (Decidable (_ ∨ _))

section
variable {H : CachingHash} {B : ℕ} {prompt r : Request}

/-- The hasher continues a chain whose next keys its restart finds. -/
theorem update_eq_chain (hB : 0 < B) {keysOf : ℕ → Option (List ExtraKey)}
    (hk : k ≤ r.numTokens / B)
    (hold : r.blockHashes = hashChain H B r none 0 ((List.range k).map keysOf))
    (hkeys : storedExtraKeys r B (List.range' k (r.numTokens / B - k)) (restartIdx k B) =
      (List.range' k (r.numTokens / B - k)).map keysOf) :
    r.blockHashes ++ requestBlockHasher H B r =
      hashChain H B r none 0 ((List.range (r.numTokens / B)).map keysOf) := by
  have hlen : r.blockHashes.length = k := by
    rw [hold, hashChain_length, length_map, length_range]
  have hsplit : List.range (r.numTokens / B) =
      List.range k ++ List.range' k (r.numTokens / B - k) := by
    have happend := range'_append_1 (s := 0) (m := k) (n := r.numTokens / B - k)
    rw [Nat.zero_add, Nat.add_sub_cancel' hk] at happend
    rw [range_eq_range', range_eq_range', happend]
  rw [requestBlockHasher_eq_chain hB hlen, hkeys, hsplit, map_append, hashChain_append,
    ← hold, Option.or_none, Nat.zero_add, length_map, length_range]

/-- Hashing the rest gives the hashes from scratch if the restart misses no item. -/
theorem updateBlockHashes_eq_scratch (hB : 0 < B) (hord : ItemsOrdered r.mmFeatures)
    (hhashes : r.blockHashes = (List.range k).map (chainedHash H B r))
    (hk : k ≤ r.numTokens / B) (hcov : k < r.numTokens / B → Covers r (k * B) (restartIdx k B)) :
    (updateBlockHashes (some (requestBlockHasher H B)) r).blockHashes =
      hashesFromScratch H B (updateBlockHashes (some (requestBlockHasher H B)) r) := by
  have hsame : SameKeys r (updateBlockHashes (some (requestBlockHasher H B)) r) :=
    ⟨rfl, rfl, rfl, rfl⟩
  rw [hsame.hashesFromScratch_eq H B rfl, hashesFromScratch, map_chainedHash_eq_chain]
  refine update_eq_chain hB hk (hhashes.trans (map_chainedHash_eq_chain k)) ?_
  refine storedExtraKeys_eq hB hord _ pairwise_lt_range' _ fun i hi => ?_
  obtain ⟨hki, hlt⟩ := mem_range'_1.mp hi
  exact (hcov (by omega)).mono (Nat.mul_le_mul_right B hki)

/-- One call keeps the hashes right when its restart covers the next block. -/
theorem appendTokens_eq_scratch (hB : 0 < B) (hord : ItemsOrdered r.mmFeatures)
    (hhashes : r.blockHashes = hashesFromScratch H B r) (tokenIds : List ℕ)
    (hcov : r.numTokens / B < (appendTokens H B r tokenIds).numTokens / B →
      Covers r (r.numTokens / B * B) (restartIdx (r.numTokens / B) B)) :
    (appendTokens H B r tokenIds).blockHashes =
      hashesFromScratch H B (appendTokens H B r tokenIds) := by
  let r' : Request := { r with
    outputTokenIds := r.outputTokenIds ++ tokenIds, allTokenIds := r.allTokenIds ++ tokenIds }
  have hgrows : Grows r r' := ⟨⟨rfl, rfl, rfl, rfl⟩, prefix_append _ _⟩
  have hle : r.numTokens / B ≤ r'.numTokens / B := Nat.div_le_div_right hgrows.numTokens_le
  have hold : r'.blockHashes = (List.range (r.numTokens / B)).map (chainedHash H B r') := by
    rw [hgrows.map_range_eq H le_rfl]
    exact hhashes
  exact updateBlockHashes_eq_scratch (r := r') hB hord hold hle hcov

/-- A new request is hashed once, from no hashes. -/
theorem create_eq_update {p : Prompt}
    (hcreate : Request.create (some (requestBlockHasher H B)) p = .ok r) :
    ∃ r', r'.blockHashes = [] ∧ r = updateBlockHashes (some (requestBlockHasher H B)) r' := by
  unfold Request.create at hcreate
  cases hlen : lengthFromPromptTokenIdsOrEmbeds p.promptTokenIds p.promptEmbeds with
  | error e =>
    rw [hlen] at hcreate
    cases hcreate
  | ok numPromptTokens =>
    rw [hlen] at hcreate
    cases hcreate
    exact ⟨_, rfl, rfl⟩

/-- A request is created with the hashes from scratch. -/
theorem create_eq_scratch (hB : 0 < B) {p : Prompt}
    (hcreate : Request.create (some (requestBlockHasher H B)) p = .ok r)
    (hord : ItemsOrdered r.mmFeatures) : r.blockHashes = hashesFromScratch H B r := by
  obtain ⟨r', hnil, rfl⟩ := create_eq_update hcreate
  refine updateBlockHashes_eq_scratch hB hord (k := 0) hnil (Nat.zero_le _) ?_
  intro _
  rw [restartIdx, Nat.zero_mul, if_neg (lt_irrefl 0)]
  exact covers_idx_zero _ 0

/-- Where the hasher starts its scan for block `i`: a restart at the prompt's
unfinished block, and before it a scan from the first item. -/
def hashedKeys (B : ℕ) (prompt : Request) (i : ℕ) : Option (List ExtraKey) :=
  (generateBlockHashExtraKeys prompt (i * B) (i * B + B)
    (if i = prompt.numTokens / B then restartIdx i B else .idx 0)).1

/-- The request's hashes are the chain over the hashed keys. -/
def Hashed (H : CachingHash) (B : ℕ) (prompt r : Request) : Prop :=
  r.blockHashes = hashChain H B r none 0 ((List.range (r.numTokens / B)).map (hashedKeys B prompt))

section
variable (hB : 0 < B) (hitems : ItemsInPrompt prompt)
include hB hitems

theorem hashedKeys_of_ne (hi : i ≠ prompt.numTokens / B) :
    hashedKeys B prompt i = blockExtraKeys B prompt i := by
  rw [hashedKeys, if_neg hi, blockExtraKeys,
    ← (genMmExtraHashKeys_eq hitems.ordered (by omega) (covers_idx_zero prompt (i * B))).1]
  rfl

section
variable (hgrows : Grows prompt r)
include hgrows

/-- Behind the prompt's unfinished block no item is left, wherever the scan is. -/
theorem storedExtraKeys_past (hk : prompt.numTokens / B < k) (m : ℕ) (mmIdx : MmIdx) :
    storedExtraKeys r B (List.range' k m) mmIdx = (List.range' k m).map (hashedKeys B prompt) := by
  have hpast : ∀ i ∈ List.range' k m, prompt.numTokens / B < i := by
    intro i hi
    exact hk.trans_le (mem_range'_1.mp hi).1
  rw [storedExtraKeys_eq hB (hgrows.mmFeatures ▸ hitems.ordered) _ pairwise_lt_range']
  · refine map_congr_left fun i hi => ?_
    rw [hashedKeys_of_ne hB hitems (hpast i hi).ne', hgrows.blockExtraKeys_eq]
  · intro i hi f hf
    have hmem := mem_of_mem_take hf
    rw [hgrows.mmFeatures] at hmem
    exact (hitems.inside f hmem).trans ((Nat.div_lt_iff_lt_mul hB).mp (hpast i hi)).le

/-- From a block at or behind the prompt's unfinished one, the hasher's scan
gives the hashed keys. -/
theorem storedExtraKeys_restart (hk : prompt.numTokens / B ≤ k) (m : ℕ) :
    storedExtraKeys r B (List.range' k m) (restartIdx k B) =
      (List.range' k m).map (hashedKeys B prompt) := by
  rcases hk.lt_or_eq with hlt | heq
  · exact storedExtraKeys_past hB hitems hgrows hlt m _
  · cases m with
    | zero => rfl
    | succ m =>
      rw [range'_succ, map_cons, storedExtraKeys, hgrows.generateBlockHashExtraKeys_eq]
      simp only
      rw [storedExtraKeys_past hB hitems hgrows (by omega), hashedKeys, if_pos heq.symm]

/-- One call of `append_output_token_ids` keeps the chain. -/
theorem Hashed.append (h : Hashed H B prompt r) (tokenIds : List ℕ) :
    Hashed H B prompt (appendTokens H B r tokenIds) := by
  let r' : Request := { r with
    outputTokenIds := r.outputTokenIds ++ tokenIds, allTokenIds := r.allTokenIds ++ tokenIds }
  have hstep : Grows r r' := ⟨⟨rfl, rfl, rfl, rfl⟩, prefix_append _ _⟩
  refine (update_eq_chain (r := r') hB (Nat.div_le_div_right hstep.numTokens_le) ?_ ?_).trans
    (hashChain_congr _ _ 0 rfl le_rfl)
  · refine Eq.trans h (hashChain_congr _ _ 0 (hstep.take_eq le_rfl) ?_).symm
    simpa using Nat.div_mul_le_self r.numTokens B
  · exact storedExtraKeys_restart hB hitems (hgrows.trans hstep)
      (Nat.div_le_div_right hgrows.numTokens_le) _

/-- However the tokens arrive, the hashes are one chain over the hashed keys. -/
theorem Hashed.grow (h : Hashed H B prompt r) (calls : List (List ℕ)) :
    Hashed H B prompt (grow H B r calls) := by
  induction calls generalizing r with
  | nil => exact h
  | cons tokenIds calls ih =>
    exact ih (hgrows.trans (appendTokens_grows H B r tokenIds))
      (h.append hB hitems hgrows tokenIds)
end

theorem hashed_create {p : Prompt}
    (hcreate : Request.create (some (requestBlockHasher H B)) p = .ok prompt) :
    Hashed H B prompt prompt := by
  obtain ⟨r, hnil, rfl⟩ := create_eq_update hcreate
  have hsame : SameKeys r (updateBlockHashes (some (requestBlockHasher H B)) r) :=
    ⟨rfl, rfl, rfl, rfl⟩
  refine (update_eq_chain hB (Nat.zero_le _) hnil ?_).trans (hashChain_congr _ _ 0 rfl le_rfl)
  rw [storedExtraKeys_eq (r := r) hB hitems.ordered _ pairwise_lt_range']
  · refine map_congr_left fun i hi => ?_
    have hlt : i < r.numTokens / B := by simpa using hi
    rw [hashedKeys_of_ne hB hitems hlt.ne, hsame.blockExtraKeys_eq]
  · intro i _
    rw [restartIdx, Nat.zero_mul, if_neg (lt_irrefl 0)]
    exact covers_idx_zero r (i * B)
end

variable (calls : List (List ℕ))

theorem grow_numTokens : (grow H B r calls).numTokens = r.numTokens + calls.flatten.length := by
  induction calls generalizing r with
  | nil => rfl
  | cons tokenIds calls ih =>
    have hstep : (appendTokens H B r tokenIds).numTokens = r.numTokens + tokenIds.length :=
      length_append
    rw [grow, foldl_cons, ← grow, ih, hstep, flatten_cons, length_append]
    omega

def itemsOf (extraKeys : Option (List ExtraKey)) : List ExtraKey :=
  (extraKeys.getD []).filter fun
    | .item _ _ => true
    | _ => false

theorem itemsOf_assembleExtraKeys (s e : ℕ) (keys : List ExtraKey) :
    itemsOf (assembleExtraKeys r s e keys) = itemsOf (some keys) := by
  have hlora : itemsOf (some (genLoraExtraHashKeys r)) = [] := by
    cases h : r.loraRequest <;> simp [genLoraExtraHashKeys, itemsOf, h]
  have hsalt : itemsOf (some (genCacheSaltKeys r s)) = [] := by
    cases h : r.cacheSalt with
    | none => simp [genCacheSaltKeys, itemsOf, h]
    | some salt => by_cases hs : s = 0 ∧ salt ≠ "" <;> simp [genCacheSaltKeys, itemsOf, h, hs]
  have hembeds : itemsOf (some (genPromptEmbedsExtraHashKeys r s e)) = [] := by
    cases h : r.promptEmbeds <;> simp [genPromptEmbedsExtraHashKeys, itemsOf, h]
  have hget : (assembleExtraKeys r s e keys).getD [] = genLoraExtraHashKeys r ++ keys ++
      genCacheSaltKeys r s ++ genPromptEmbedsExtraHashKeys r s e := by
    dsimp only [assembleExtraKeys]
    split
    · next hnil => exact hnil.symm
    · rfl
  simp only [itemsOf, Option.getD_some] at hlora hsalt hembeds ⊢
  rw [hget, filter_append, filter_append, filter_append, hlora, hsalt, hembeds,
    nil_append, append_nil, append_nil]

theorem itemsOf_map_itemKey (s : ℕ) (items : List MultiModalFeatureSpec) :
    itemsOf (some (items.map (itemKey s))) = items.map (itemKey s) := by
  simp [itemsOf, itemKey, filter_eq_self]

/-- No item other than the last one lies in block `i`. -/
def LastItemOnly (B : ℕ) (r : Request) (i : ℕ) : Prop :=
  ∀ f ∈ r.mmFeatures.dropLast, ¬ (f.mmPosition.offset < i * B + B ∧ i * B < itemEnd f)

/-- A scan lists all keys of the block exactly if it skips none of its items. -/
theorem generateBlockHashExtraKeys_eq_iff (hord : ItemsOrdered r.mmFeatures) (mmIdx : MmIdx) :
    (generateBlockHashExtraKeys r (i * B) (i * B + B) mmIdx).1 = blockExtraKeys B r i ↔
      ∀ f ∈ r.mmFeatures.take (MmIdx.position r.mmFeatures mmIdx),
        ¬ (f.mmPosition.offset < i * B + B ∧ i * B < itemEnd f) := by
  set l := r.mmFeatures.take (MmIdx.position r.mmFeatures mmIdx) with hl
  have hmm := genMmExtraHashKeys_fst hord (s := i * B) (e := i * B + B) mmIdx
  have hover : overlapping r (i * B) (i * B + B) =
      l.filter (fun f => f.mmPosition.offset < i * B + B ∧ i * B < itemEnd f) ++
        (r.mmFeatures.drop (MmIdx.position r.mmFeatures mmIdx)).filter
          (fun f => f.mmPosition.offset < i * B + B ∧ i * B < itemEnd f) := by
    rw [overlapping, ← filter_append, hl, take_append_drop]
  have hnone : (∀ f ∈ l, ¬ (f.mmPosition.offset < i * B + B ∧ i * B < itemEnd f)) ↔
      l.filter (fun f => f.mmPosition.offset < i * B + B ∧ i * B < itemEnd f) = [] := by
    simp [filter_eq_nil_iff]
  rw [hnone]
  constructor
  · intro h
    have hkeys := congrArg (fun x => (itemsOf x).length) h
    simp only [generateBlockHashExtraKeys, blockExtraKeys, itemsOf_assembleExtraKeys, hmm, hover,
      itemsOf_map_itemKey, length_map, length_append] at hkeys
    exact length_eq_zero_iff.mp (by omega)
  · intro h
    simp only [generateBlockHashExtraKeys, blockExtraKeys, hmm, hover, h, nil_append]

/-- The hasher sees every item of block `i`: it starts at the first item, or no
other item than the last lies in the block. -/
def FullKeysSeen (B : ℕ) (prompt : Request) (i : ℕ) : Prop :=
  i = prompt.numTokens / B → 0 < i → LastItemOnly B prompt i

section
variable (hB : 0 < B) (hitems : ItemsInPrompt prompt)
include hB hitems

/-- A restart sees all items of its block exactly when the last item is the only one there. -/
theorem restart_eq_iff : (generateBlockHashExtraKeys prompt (i * B) (i * B + B)
    (restartIdx i B)).1 = blockExtraKeys B prompt i ↔ (0 < i → LastItemOnly B prompt i) := by
  rw [generateBlockHashExtraKeys_eq_iff hitems.ordered, restartIdx]
  by_cases hi : 0 < i
  · rw [if_pos (Nat.mul_pos hi hB), MmIdx.position, ← dropLast_eq_take]
    exact ⟨fun h _ => h, fun h => h hi⟩
  · rw [Nat.eq_zero_of_not_pos hi, Nat.zero_mul, if_neg (lt_irrefl 0), MmIdx.position]
    simp

/-- A block is hashed with its own keys exactly when the hasher has seen them all. -/
theorem blockExtraKeys_eq_hashedKeys_iff (hgrows : Grows prompt r) :
    blockExtraKeys B r i = hashedKeys B prompt i ↔ FullKeysSeen B prompt i := by
  rw [hgrows.blockExtraKeys_eq]
  by_cases hi : i = prompt.numTokens / B
  · rw [hashedKeys, if_pos hi, eq_comm, restart_eq_iff hB hitems]
    exact ⟨fun h _ => h, fun h => h hi⟩
  · rw [hashedKeys_of_ne hB hitems hi]
    exact ⟨fun _ h => absurd h hi, fun _ => rfl⟩

theorem lastItemOnly_iff_tailItems :
    LastItemOnly B prompt (prompt.numTokens / B) ↔ (tailItems B prompt).length ≤ 1 := by
  have hlt : prompt.numTokens < prompt.numTokens / B * B + B := by
    have := Nat.lt_div_mul_add hB (a := prompt.numTokens)
    omega
  constructor
  · intro honly
    have hnil : (prompt.mmFeatures.dropLast.filter fun f =>
        prompt.numTokens / B * B < itemEnd f) = [] := by
      rw [filter_eq_nil_iff]
      intro f hf hover
      have := hitems.inside f (mem_of_mem_dropLast hf)
      have := offset_le_itemEnd f
      exact honly f hf ⟨by omega, by simpa using hover⟩
    rcases eq_nil_or_concat prompt.mmFeatures with hmm | ⟨init, lastItem, hmm⟩
    · simp [tailItems, hmm]
    · rw [hmm, concat_eq_append, dropLast_concat] at hnil
      rw [tailItems, hmm, concat_eq_append, filter_append, hnil, nil_append]
      exact length_filter_le _ [lastItem]
  · intro hfew f hf hover
    have hne : prompt.mmFeatures ≠ [] := ne_nil_of_mem (mem_of_mem_dropLast hf)
    have hlast : itemEnd f ≤ itemEnd (prompt.mmFeatures.getLast hne) :=
      itemEnd_le_last hitems.ordered (getLast?_eq_some_getLast hne)
        (mem_of_mem_dropLast hf)
    rw [tailItems, ← dropLast_append_getLast hne, filter_append, length_append]
      at hfew
    have hone : 0 < (prompt.mmFeatures.dropLast.filter fun f =>
        prompt.numTokens / B * B < itemEnd f).length :=
      length_pos_of_mem (mem_filter.mpr ⟨hf, by simpa using hover.2⟩)
    have htwo : (List.filter (fun f => decide (prompt.numTokens / B * B < itemEnd f))
        [prompt.mmFeatures.getLast hne]).length = 1 := by
      rw [filter_cons_of_pos (by simp; omega)]
      rfl
    omega

/-- Growing leaves the hashes of hashing from scratch exactly when the block
completed by the first calls is hashed with all its items. -/
theorem grow_eq_scratch_iff (hinj : Function.Injective H.hashFunction) {p : Prompt}
    (hcreate : Request.create (some (requestBlockHasher H B)) p = .ok prompt)
    (calls : List (List ℕ)) :
    (grow H B prompt calls).blockHashes = hashesFromScratch H B (grow H B prompt calls) ↔
      TailItemsSeen B prompt ∨
        (grow H B prompt calls).numTokens < (prompt.numTokens / B + 1) * B := by
  have hgrows := grow_grows H B prompt calls
  have hhashed := (hashed_create hB hitems hcreate).grow hB hitems (Grows.refl prompt) calls
  set r := grow H B prompt calls with hr
  have hkeys : r.blockHashes = hashesFromScratch H B r ↔
      ∀ i < r.numTokens / B, FullKeysSeen B prompt i := by
    rw [hashesFromScratch, map_chainedHash_eq_chain, show r.blockHashes = _ from hhashed]
    simp only [← blockExtraKeys_eq_hashedKeys_iff hB hitems hgrows]
    constructor
    · intro h i hi
      exact (map_inj_left.mp (hashChain_inj none _ _ hinj 0 h) i (mem_range.mpr hi)).symm
    · intro h
      rw [map_congr_left fun i hi => (h i (mem_range.mp hi)).symm]
  have hshort : prompt.numTokens < B ↔ prompt.numTokens / B = 0 := by
    rw [Nat.div_eq_zero_iff]
    omega
  rw [hkeys, TailItemsSeen, hshort, ← lastItemOnly_iff_tailItems hB hitems,
    ← Nat.div_lt_iff_lt_mul hB]
  constructor
  · intro h
    by_contra hnot
    obtain ⟨hmissed, hfull⟩ := not_or.mp hnot
    obtain ⟨hpos, hmany⟩ := not_or.mp hmissed
    exact hmany (h _ (Nat.lt_of_succ_le (not_lt.mp hfull)) rfl (Nat.pos_of_ne_zero hpos))
  · rintro h i hi rfl hpos
    rcases h with (hzero | honly) | hnone
    · omega
    · exact honly
    · omega
end

end

def itemsIn (r : Request) (startTokenIdx endTokenIdx : ℕ) : List (String × ℕ) :=
  (overlapping r startTokenIdx endTokenIdx).map fun f => (f.identifier, f.mmPosition.offset)

/-- Two requests have the same tokens and the same multimodal items in the
first `k` blocks. -/
def AgreeUpTo (B k : ℕ) (r₁ r₂ : Request) : Prop :=
  r₁.allTokenIds.take (k * B) = r₂.allTokenIds.take (k * B) ∧
    ∀ j < k, itemsIn r₁ (j * B) (j * B + B) = itemsIn r₂ (j * B) (j * B + B)

section
variable {H : CachingHash} {B : ℕ} {r₁ r₂ : Request}

theorem itemsIn_eq_of_keys
    (h : (overlapping r₁ s e).map (itemKey s) = (overlapping r₂ s e).map (itemKey s)) :
    itemsIn r₁ s e = itemsIn r₂ s e := by
  let place : ExtraKey → String × ℕ
    | .item identifier offset => (identifier, (offset + s).toNat)
    | _ => ("", 0)
  have hplace : ∀ items : List MultiModalFeatureSpec, (items.map (itemKey s)).map place =
        items.map fun f => (f.identifier, f.mmPosition.offset) := by
    intro items
    rw [map_map]
    refine map_congr_left ?_
    intro f _
    simp [place, itemKey]
  rw [itemsIn, itemsIn, ← hplace, ← hplace, h]

/-- Equal hashes stand for equal tokens and items in the block. -/
theorem chainedHash_inj (hinj : Function.Injective H.hashFunction)
    (h : chainedHash H B r₁ i = chainedHash H B r₂ i) :
    r₁.slice (i * B) (i * B + B) = r₂.slice (i * B) (i * B + B) ∧
      itemsIn r₁ (i * B) (i * B + B) = itemsIn r₂ (i * B) (i * B + B) ∧
      ∀ j, i = j + 1 → chainedHash H B r₁ j = chainedHash H B r₂ j := by
  have hne : ∀ r j, chainedHash H B r j ≠ H.noneHash := by
    intro r j heq
    rw [chainedHash_eq] at heq
    exact HashInput.noConfusion (hinj heq)
  rw [chainedHash_eq, chainedHash_eq] at h
  obtain ⟨htokens, hkeys⟩ := hashBlockTokens_inj hinj h
  have hitems := congrArg itemsOf hkeys
  rw [blockExtraKeys, blockExtraKeys, itemsOf_assembleExtraKeys, itemsOf_assembleExtraKeys,
    itemsOf_map_itemKey, itemsOf_map_itemKey] at hitems
  refine ⟨htokens, itemsIn_eq_of_keys hitems, ?_⟩
  rintro j rfl
  have hparent := hinj h
  simp only [HashInput.block.injEq, parentHash] at hparent
  by_cases h₁ : chainedHash H B r₁ j = [] <;> by_cases h₂ : chainedHash H B r₂ j = []
  · rw [h₁, h₂]
  · rw [if_pos h₁, if_neg h₂] at hparent
    exact absurd hparent.1.symm (hne r₂ j)
  · rw [if_neg h₁, if_pos h₂] at hparent
    exact absurd hparent.1 (hne r₁ j)
  · rw [if_neg h₁, if_neg h₂] at hparent
    exact hparent.1

theorem take_succ_block (r : Request) (k : ℕ) : r.allTokenIds.take ((k + 1) * B) =
      r.allTokenIds.take (k * B) ++ r.slice (k * B) (k * B + B) := by
  have hmul : (k + 1) * B = k * B + B := by ring
  have hsplit := take_append_drop (k * B) (r.allTokenIds.take (k * B + B))
  rw [take_take, Nat.min_eq_left (Nat.le_add_right _ _)] at hsplit
  rw [hmul, Request.slice, hsplit]

/-- Equal hashes of block `i` stand for equal beginnings, along the whole chain. -/
theorem agreeUpTo_of_chainedHash (hinj : Function.Injective H.hashFunction)
    (h : chainedHash H B r₁ i = chainedHash H B r₂ i) : AgreeUpTo B (i + 1) r₁ r₂ := by
  induction i with
  | zero =>
    obtain ⟨htokens, hitems, -⟩ := chainedHash_inj hinj h
    refine ⟨?_, ?_⟩
    · rw [take_succ_block, take_succ_block, htokens]
      simp
    · intro j hj
      rw [show j = 0 by omega]
      exact hitems
  | succ i ih =>
    obtain ⟨htokens, hitems, hparent⟩ := chainedHash_inj hinj h
    obtain ⟨hprev, hprevItems⟩ := ih (hparent i rfl)
    refine ⟨?_, ?_⟩
    · rw [take_succ_block r₁ (i + 1), take_succ_block r₂ (i + 1), htokens, hprev]
    · intro j hj
      by_cases hlast : j = i + 1
      · rw [hlast]
        exact hitems
      · exact hprevItems j (by omega)
end

/-- Growing a request by any calls leaves the hashes of hashing it from scratch
exactly when the prompt's unfinished block has at most one item to see again,
has no full block before it, or is not filled. Requests hashed that way agree
wherever their hashes do. -/
theorem blockHashes_grow_iff {H : CachingHash} (hinj : Function.Injective H.hashFunction)
    {B : ℕ} (hB : 0 < B) :
    (∀ (p : Prompt) (r : Request) (calls : List (List ℕ)),
      Request.create (some (requestBlockHasher H B)) p = .ok r → ItemsInPrompt r →
      ((grow H B r calls).blockHashes = hashesFromScratch H B (grow H B r calls) ↔
        TailItemsSeen B r ∨ r.numTokens + calls.flatten.length < (r.numTokens / B + 1) * B)) ∧
    ∀ (r₁ r₂ : Request) (i : ℕ) (h : BlockHash), r₁.blockHashes = hashesFromScratch H B r₁ →
      r₂.blockHashes = hashesFromScratch H B r₂ → r₁.blockHashes[i]? = some h →
      r₂.blockHashes[i]? = some h → AgreeUpTo B (i + 1) r₁ r₂ := by
  refine ⟨?_, ?_⟩
  · intro p r calls hcreate hitems
    rw [← grow_numTokens (H := H) (B := B)]
    exact grow_eq_scratch_iff hB hitems hinj hcreate calls
  · intro r₁ r₂ i h hr₁ hr₂ h₁ h₂
    have hat : ∀ r : Request, r.blockHashes = hashesFromScratch H B r →
        r.blockHashes[i]? = some h → chainedHash H B r i = h := by
      intro r hr hi
      obtain ⟨hlt, -⟩ := List.getElem?_eq_some_iff.mp hi
      rw [hr, hashesFromScratch, length_map, length_range] at hlt
      rw [hr, hashesFromScratch_getElem? hlt] at hi
      exact Option.some.inj hi
    exact agreeUpTo_of_chainedHash hinj ((hat r₁ hr₁ h₁).trans (hat r₂ hr₂ h₂).symm)

instance countable_uInt8 : Countable UInt8 :=
  Function.Injective.countable (f := UInt8.toNat) fun _ _ h => UInt8.toNat.inj h

instance countable_char : Countable Char :=
  Function.Injective.countable (f := Char.toNat) fun _ _ h => Char.toNat_inj.mp h

instance countable_string : Countable String :=
  Function.Injective.countable (f := String.toList) fun _ _ h => String.toList_inj.mp h

deriving instance Countable for ExtraKey

deriving instance Countable for HashInput

theorem exists_injective_hash : ∃ H : CachingHash, Function.Injective H.hashFunction := by
  obtain ⟨f, hf⟩ := exists_injective_nat HashInput
  refine ⟨⟨fun x => List.replicate (f x) 0, "vllm-none-hash"⟩, ?_⟩
  intro x y hxy
  have hlen := congrArg List.length hxy
  rw [length_replicate, length_replicate] at hlen
  exact hf hlen

def fiveTokenPrompt (items : List MultiModalFeatureSpec) : Prompt :=
  { promptTokenIds := some [1, 1, 1, 9, 9], promptEmbeds := none, promptIsTokenIds := none
    mmFeatures := items, loraRequest := none, cacheSalt := none }

def fiveTokenRequest (H : CachingHash) (items : List MultiModalFeatureSpec) : Request :=
  updateBlockHashes (some (requestBlockHasher H 3))
    { numPromptTokens := 5, promptTokenIds := some [1, 1, 1, 9, 9], outputTokenIds := []
      allTokenIds := [1, 1, 1, 9, 9], promptEmbeds := none, mmFeatures := items
      loraRequest := none, cacheSalt := none, blockHashes := [] }

variable (H : CachingHash) (items : List MultiModalFeatureSpec)

theorem fiveTokenRequest_create :
    Request.create (some (requestBlockHasher H 3)) (fiveTokenPrompt items) =
      .ok (fiveTokenRequest H items) := rfl

theorem fiveTokenRequest_numTokens : (fiveTokenRequest H items).numTokens = 5 := rfl

theorem fiveTokenRequest_one_item : ItemsInPrompt (fiveTokenRequest H [⟨"a", 3, 2⟩]) := by
  refine ⟨pairwise_singleton _ _, ?_⟩
  intro f hf
  rw [mem_singleton.mp hf]
  exact le_rfl

/-- One item in the unfinished block is hashed right when the block is filled. -/
theorem blockHashes_grow_one_item : ∃ H : CachingHash, Function.Injective H.hashFunction ∧
      (grow H 3 (fiveTokenRequest H [⟨"a", 3, 2⟩]) [[7]]).blockHashes =
        hashesFromScratch H 3 (grow H 3 (fiveTokenRequest H [⟨"a", 3, 2⟩]) [[7]]) ∧
      AgreeUpTo 3 2 (grow H 3 (fiveTokenRequest H [⟨"a", 3, 2⟩]) [[7]])
        (grow H 3 (fiveTokenRequest H [⟨"a", 3, 2⟩]) [[7]]) := by
  obtain ⟨H, hinj⟩ := exists_injective_hash
  have hseen : TailItemsSeen 3 (fiveTokenRequest H [⟨"a", 3, 2⟩]) :=
    Or.inr (length_filter_le _ _)
  have hall := ((blockHashes_grow_iff hinj (B := 3) (by decide)).1 _ _ [[7]]
    (fiveTokenRequest_create H [⟨"a", 3, 2⟩]) (fiveTokenRequest_one_item H)).mpr (.inl hseen)
  have hlast := hashesFromScratch_getElem? (H := H) (B := 3) (i := 1)
    (r := grow H 3 (fiveTokenRequest H [⟨"a", 3, 2⟩]) [[7]]) (show 1 < 6 / 3 by decide)
  rw [← hall] at hlast
  exact ⟨H, hinj, hall, (blockHashes_grow_iff hinj (by decide)).2 _ _ 1 _ hall hall hlast hlast⟩

theorem grow_fiveTokenRequest (x : String) :
    (grow H 3 (fiveTokenRequest H [⟨x, 3, 1⟩, ⟨"c", 4, 1⟩]) [[7]]).blockHashes =
      [hashBlockTokens H none [1, 1, 1] none,
        hashBlockTokens H (some (hashBlockTokens H none [1, 1, 1] none)) [9, 9, 7]
          (some [.item "c" 1])] := rfl

/-- Two requests whose images differ at token 3 end up with the same hashes:
the block that holds the images was completed by a generated token, and only
its last image was hashed. -/
theorem blockHashes_grow_two_items : ∃ H : CachingHash, Function.Injective H.hashFunction ∧
      ItemsInPrompt (fiveTokenRequest H [⟨"a", 3, 1⟩, ⟨"c", 4, 1⟩]) ∧
      (grow H 3 (fiveTokenRequest H [⟨"a", 3, 1⟩, ⟨"c", 4, 1⟩]) [[7]]).blockHashes ≠
        hashesFromScratch H 3
          (grow H 3 (fiveTokenRequest H [⟨"a", 3, 1⟩, ⟨"c", 4, 1⟩]) [[7]]) ∧
      (grow H 3 (fiveTokenRequest H [⟨"a", 3, 1⟩, ⟨"c", 4, 1⟩]) [[7]]).blockHashes =
        (grow H 3 (fiveTokenRequest H [⟨"b", 3, 1⟩, ⟨"c", 4, 1⟩]) [[7]]).blockHashes ∧
      itemsIn (grow H 3 (fiveTokenRequest H [⟨"a", 3, 1⟩, ⟨"c", 4, 1⟩]) [[7]]) 3 6 ≠
        itemsIn (grow H 3 (fiveTokenRequest H [⟨"b", 3, 1⟩, ⟨"c", 4, 1⟩]) [[7]]) 3 6 := by
  obtain ⟨H, hinj⟩ := exists_injective_hash
  have hitems : ItemsInPrompt (fiveTokenRequest H [⟨"a", 3, 1⟩, ⟨"c", 4, 1⟩]) := by
    refine ⟨?_, ?_⟩
    · show List.Pairwise _ [_, _]
      simp [itemEnd]
    · show ∀ f ∈ [_, _], itemEnd f ≤ 5
      simp [itemEnd]
  have hmissed : ¬ TailItemsSeen 3 (fiveTokenRequest H [⟨"a", 3, 1⟩, ⟨"c", 4, 1⟩]) := by
    rw [TailItemsSeen, tailItems, fiveTokenRequest_numTokens]
    show ¬ (5 < 3 ∨ (List.filter _ [_, _]).length ≤ 1)
    simp [itemEnd]
  refine ⟨H, hinj, hitems, ?_, ?_, ?_⟩
  · rw [ne_eq, grow_eq_scratch_iff (by decide) hitems hinj (fiveTokenRequest_create H _), not_or]
    refine ⟨hmissed, ?_⟩
    rw [grow_numTokens, fiveTokenRequest_numTokens]
    decide
  · rw [grow_fiveTokenRequest, grow_fiveTokenRequest]
  · show [("a", 3), ("c", 4)] ≠ [("b", 3), ("c", 4)]
    decide

end Vllm.HashGrowth
