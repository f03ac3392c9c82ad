import Vllm.LongestHit

/-!
The lookup of the hybrid coordinator. Groups of layers with different
specifications have to agree on one hit length. Each kind of layer in turn
accepts the current candidate or reduces it, until a pass changes nothing; full
attention is looked up once and trimmed afterwards, and one pass suffices for
full attention with one other specification.
-/
namespace Vllm.HybridLookup

open Outcome BlockHashing BlockHashMap CacheManagers CacheHit LongestHit List
open Pool hiding resolveBlockHashes

variable {n : ℕ}

/-- What the constructor of the coordinator establishes: block sizes are
multiples of the hash block size and divide the scheduler block size, partial
hits are enabled only if every lookup supports them, full attention comes first,
and every group belongs to one specification. -/
structure LookupConfig where
  hashBlockSize : ℕ+
  schedulerBlockSize : ℕ+
  enablePartialHashHits : Bool
  attentionGroups : List SpecGroup
  attentionGroups_ne_nil : attentionGroups ≠ []
  hash_dvd : ∀ g ∈ attentionGroups, (hashBlockSize : ℕ) ∣ g.blockSize
  block_dvd : ∀ g ∈ attentionGroups, (g.blockSize : ℕ) ∣ schedulerBlockSize
  fine_supported : enablePartialHashHits = true → ∀ g ∈ attentionGroups,
    g.kind.supportsFineGrainedHashLookup = false → g.blockSize = hashBlockSize
  full_first : attentionGroups.Pairwise fun a b => b.kind = .fullAttention → a.kind = .fullAttention
  ids_disjoint : attentionGroups.Pairwise fun a b => ∀ id ∈ a.groupIds, id ∉ b.groupIds

def LookupConfig.cacheHitAlignmentTokens (cfg : LookupConfig) : ℕ :=
  if cfg.enablePartialHashHits then cfg.hashBlockSize else cfg.schedulerBlockSize

/-- The variables of the loop. Hits are kept by the index of the group. -/
structure LookupState (n : ℕ) where
  currHitLength : ℕ
  longestHitLength : ℕ
  hits : ℕ → Option (List (Row n) × ℕ)
  eagleVerified : ℕ → Bool

variable (cfg : LookupConfig) (pool : BlockPool n) (blockHashes : List BlockHash)
  (maxCacheHitLength : ℕ)

/-- The unit that EAGLE matches past the candidate and drops again. -/
def eagleMargin (g : SpecGroup) : ℕ :=
  if cfg.enablePartialHashHits ∧ g.kind.supportsFineGrainedHashLookup ∧
      cfg.hashBlockSize < g.blockSize then
    cfg.hashBlockSize
  else
    g.blockSize

def lookupGroup (g : SpecGroup) (idx : ℕ) (st : LookupState n) :
    Except Failure (LookupState n) := do
  let dropEagleBlock := g.useEagle && !st.eagleVerified idx
  -- no margin for Mamba: its lookup never drops, so the hit would grow
  let maxLength :=
    if dropEagleBlock ∧ g.kind ≠ .mamba then
      min (st.currHitLength + eagleMargin cfg g) maxCacheHitLength
    else
      st.currHitLength
  let (hitBlocks, newHitLength) ← findLongestCacheHit pool g blockHashes maxLength dropEagleBlock
    cfg.cacheHitAlignmentTokens
  return {
    currHitLength := newHitLength
    longestHitLength := max st.longestHitLength newHitLength
    hits := Function.update st.hits idx (some (hitBlocks, newHitLength))
    eagleVerified :=
      if dropEagleBlock then Function.update st.eagleVerified idx true
      else if newHitLength < st.currHitLength then fun _ => false
      else st.eagleVerified }

def visitGroup (g : SpecGroup) (idx : ℕ) (st : LookupState n) : Except Failure (LookupState n) :=
  -- Full attention is downward closed: it is looked up once and the candidate is trimmed to it
  -- afterwards.
  match g.kind, st.hits idx with
  | .fullAttention, some (_, hitLength) =>
    .ok { st with currHitLength := min st.currHitLength hitLength }
  | _, _ => lookupGroup cfg pool blockHashes maxCacheHitLength g idx st

def lookupPass : List (SpecGroup × ℕ) → LookupState n → Except Failure (LookupState n)
  | [], st => .ok st
  | (g, idx) :: groups, st => do
    let st ← visitGroup cfg pool blockHashes maxCacheHitLength g idx st
    lookupPass groups st

def isSimpleHybrid : Bool :=
  match cfg.attentionGroups with
  | [g, _] => g.kind = .fullAttention
  | _ => false

/-- The loop over passes. A pass that shortens the candidate shortens it by at
least one token, so the fuel of `findLongestCacheHit` does not run out. -/
def lookupLoop : ℕ → ℕ → LookupState n → Except Failure (ℕ × LookupState n)
  | 0, _, _ => .error (.runtimeError "lookup did not converge")
  | fuel + 1, hitLength, st => do
    let st ← lookupPass cfg pool blockHashes maxCacheHitLength cfg.attentionGroups.zipIdx
      { st with currHitLength := hitLength }
    if hitLength ≤ st.currHitLength then
      return (hitLength, st)
    else if isSimpleHybrid cfg then
      return (st.currHitLength, st)
    else
      lookupLoop fuel st.currHitLength st

structure LookupResult (n : ℕ) where
  hitBlocks : ℕ → List (Row n)
  hitLength : ℕ
  numUncachedCommonPrefixTokens : ℤ

def resultBlocks (hitLength : ℕ) (st : LookupState n) (idx : ℕ) : List (Row n) :=
  match cfg.attentionGroups[idx]?, st.hits idx with
  | some g, some (rows, _) =>
    if g.kind = .fullAttention then rows.take (cdiv hitLength g.blockSize) else rows
  | _, _ => []

def findLongestCacheHit : Except Failure (LookupResult n) := do
  let (hitLength, st) ← lookupLoop cfg pool blockHashes maxCacheHitLength (maxCacheHitLength + 1)
    maxCacheHitLength
    { currHitLength := maxCacheHitLength, longestHitLength := 0, hits := fun _ => none
      eagleVerified := fun _ => false }
  return {
    hitBlocks := resultBlocks cfg hitLength st
    hitLength := hitLength
    numUncachedCommonPrefixTokens := (st.longestHitLength : ℤ) - hitLength }

/-! ### What a group accepts -/

namespace LookupConfig

def scale (g : SpecGroup) : ℕ := g.blockSize / cfg.hashBlockSize

def alignUnits : ℕ := cfg.cacheHitAlignmentTokens / cfg.hashBlockSize

variable {g : SpecGroup}

section
variable (hg : g ∈ cfg.attentionGroups)
include hg

theorem blockSize_eq : (g.blockSize : ℕ) = cfg.scale g * cfg.hashBlockSize :=
  (Nat.div_mul_cancel (cfg.hash_dvd g hg)).symm

theorem scale_pos : 0 < cfg.scale g :=
  Nat.div_pos (Nat.le_of_dvd g.blockSize.pos (cfg.hash_dvd g hg)) cfg.hashBlockSize.pos

omit hg in
theorem hash_dvd_alignment : (cfg.hashBlockSize : ℕ) ∣ cfg.cacheHitAlignmentTokens := by
  unfold cacheHitAlignmentTokens
  split_ifs
  · exact dvd_rfl
  · obtain ⟨g, hg⟩ := exists_mem_of_ne_nil _ cfg.attentionGroups_ne_nil
    exact (cfg.hash_dvd g hg).trans (cfg.block_dvd g hg)

omit hg in
theorem alignment_eq : cfg.cacheHitAlignmentTokens = cfg.alignUnits * cfg.hashBlockSize :=
  (Nat.div_mul_cancel cfg.hash_dvd_alignment).symm

omit hg in
theorem alignment_pos : 0 < cfg.cacheHitAlignmentTokens := by
  unfold cacheHitAlignmentTokens
  split_ifs
  · exact cfg.hashBlockSize.pos
  · exact cfg.schedulerBlockSize.pos

omit hg in
theorem alignUnits_pos : 0 < cfg.alignUnits :=
  Nat.div_pos (Nat.le_of_dvd cfg.alignment_pos cfg.hash_dvd_alignment) cfg.hashBlockSize.pos

theorem scale_dvd (hcoarse : cfg.enablePartialHashHits = false) : cfg.scale g ∣ cfg.alignUnits := by
  have hdvd : (g.blockSize : ℕ) ∣ cfg.cacheHitAlignmentTokens := by
    simpa [cacheHitAlignmentTokens, hcoarse] using cfg.block_dvd g hg
  rw [cfg.blockSize_eq hg, cfg.alignment_eq] at hdvd
  exact (Nat.mul_dvd_mul_iff_right cfg.hashBlockSize.pos).mp hdvd

omit hg in
theorem alignUnits_eq_one (hfine : cfg.enablePartialHashHits = true) : cfg.alignUnits = 1 := by
  simp [alignUnits, cacheHitAlignmentTokens, hfine, Nat.div_self cfg.hashBlockSize.pos]

theorem alignedTo : AlignedTo cfg.alignUnits (cfg.scale g) := by
  cases hfine : cfg.enablePartialHashHits with
  | true =>
    rcases (Nat.succ_le_of_lt (cfg.scale_pos hg)).eq_or_lt with hone | hlt
    · exact .inl ⟨hone ▸ one_dvd _, cfg.alignUnits_pos⟩
    · exact .inr ⟨cfg.alignUnits_eq_one hfine, hlt⟩
  | false => exact .inl ⟨cfg.scale_dvd hg hfine, cfg.alignUnits_pos⟩

/-- Hits end on whole blocks unless hashes are finer than the blocks. -/
theorem scale_dvd_of_whole
    (hwhole : ¬(cfg.enablePartialHashHits = true ∧ cfg.hashBlockSize < g.blockSize)) :
    cfg.scale g ∣ cfg.alignUnits := by
  cases hfine : cfg.enablePartialHashHits with
  | false => exact cfg.scale_dvd hg hfine
  | true =>
    have hle : g.blockSize ≤ cfg.hashBlockSize := not_lt.mp fun hlt => hwhole ⟨hfine, hlt⟩
    have hsize : (g.blockSize : ℕ) = cfg.hashBlockSize :=
      le_antisymm hle (Nat.le_of_dvd g.blockSize.pos (cfg.hash_dvd g hg))
    have hone : cfg.scale g = 1 := by rw [scale, hsize, Nat.div_self cfg.hashBlockSize.pos]
    exact hone ▸ one_dvd _

/-- Sliding windows are looked up in whole blocks. -/
theorem scale_dvd_of_window (hkind : g.kind.supportsFineGrainedHashLookup = false) :
    cfg.scale g ∣ cfg.alignUnits := by
  refine cfg.scale_dvd_of_whole hg fun h => ?_
  rw [cfg.fine_supported h.1 g hg hkind] at h
  exact lt_irrefl _ h.2
end

end LookupConfig

variable (g : SpecGroup)

abbrev unitOf : ℕ → Option (Row n) := probeAt pool g.groupIds blockHashes

/-- A hit of `a` units is accepted by the layers of the group. -/
def AcceptsUnits (a : ℕ) : Prop :=
  cfg.alignUnits ∣ a ∧ match g.kind with
    | .fullAttention => FullCached (unitOf pool blockHashes g) (cfg.scale g) a
    | .slidingWindow window =>
      WindowCached (blockProbe (unitOf pool blockHashes g) (cfg.scale g))
        (contiguousBlocksForHit window g.blockSize false) (a / cfg.scale g)
    | .mamba => StateCached (unitOf pool blockHashes g) a

def unitRows (a : ℕ) : List (Row n) :=
  match g.kind with
  | .fullAttention => fullRows (unitOf pool blockHashes g) (cfg.scale g) a
  | .slidingWindow window =>
    windowRows (blockProbe (unitOf pool blockHashes g) (cfg.scale g))
      (g.groupIds.map fun _ => pool.nullBlock) (contiguousBlocksForHit window g.blockSize false)
      (a / cfg.scale g)
  | .mamba =>
    stateRows (unitOf pool blockHashes g) (g.groupIds.map fun _ => pool.nullBlock) (cfg.scale g) a

def Accepts (length : ℕ) : Prop :=
  ∃ a, length = a * cfg.hashBlockSize ∧ AcceptsUnits cfg pool blockHashes g a

def hitRows (length : ℕ) : List (Row n) :=
  unitRows cfg pool blockHashes g (length / cfg.hashBlockSize)

/-- The hashes reach the bound of a lookup in whole blocks from the right. -/
def Covers (blockHashes : List BlockHash) (maxLength : ℕ) : Prop :=
  g.kind ≠ .fullAttention → fineGrained g.blockSize cfg.cacheHitAlignmentTokens = false →
    maxLength / cfg.hashBlockSize / cfg.scale g ≤ blockHashes.length / cfg.scale g

section
variable {cfg pool blockHashes} {g : SpecGroup} (hg : g ∈ cfg.attentionGroups)
  (hpool : pool.hashBlockSize = cfg.hashBlockSize)

include hg hpool in
/-- The lookup of a group, in hash units: the greatest length that its layers accept. -/
theorem find_units {maxLength : ℕ} (hcovered : Covers cfg g blockHashes maxLength) :
    ∃ a, IsGreatest {a | a ≤ maxLength / cfg.hashBlockSize ∧
        AcceptsUnits cfg pool blockHashes g a} a ∧
      CacheHit.findLongestCacheHit pool g blockHashes maxLength false cfg.cacheHitAlignmentTokens =
        .ok (unitRows cfg pool blockHashes g a, a * cfg.hashBlockSize) := by
  have hh := cfg.hashBlockSize.pos
  have hs := cfg.scale_pos hg
  have hsize := cfg.blockSize_eq hg
  unfold CacheHit.findLongestCacheHit AcceptsUnits unitRows
  unfold Covers at hcovered
  rw [cfg.alignment_eq] at hcovered ⊢
  cases hkind : g.kind with
  | fullAttention =>
    simp only [hsize]
    exact findFullAttention_keep g.groupIds hh hs hpool (cfg.alignedTo hg)
  | slidingWindow window =>
    have hdvd := cfg.scale_dvd_of_window hg (by rw [hkind]; rfl)
    rw [hsize] at hcovered ⊢
    exact findSlidingWindow_keep g.groupIds hh hs hpool hdvd cfg.alignUnits_pos
      (hcovered (by simp [hkind]) (fineGrained_of_dvd hh hdvd cfg.alignUnits_pos))
  | mamba =>
    rw [hsize] at hcovered ⊢
    exact findMamba_spec g.groupIds blockHashes maxLength hh hs hpool (cfg.alignedTo hg)
      (hcovered (by simp [hkind]))

include hg hpool in
/-- The same in tokens. -/
theorem find_greatest {maxLength : ℕ}
    (hcovered : maxLength ≤ blockHashes.length * cfg.hashBlockSize) :
    ∃ length, IsGreatest {l | l ≤ maxLength ∧ Accepts cfg pool blockHashes g l} length ∧
      CacheHit.findLongestCacheHit pool g blockHashes maxLength false cfg.cacheHitAlignmentTokens =
        .ok (hitRows cfg pool blockHashes g length, length) := by
  have hh := cfg.hashBlockSize.pos
  have hunits : Covers cfg g blockHashes maxLength := fun _ _ =>
    Nat.div_le_div_right (Nat.div_le_of_le_mul (Nat.mul_comm _ _ ▸ hcovered))
  obtain ⟨a, ⟨⟨hbound, haccepts⟩, hgreatest⟩, hfind⟩ := find_units hg hpool hunits
  refine ⟨a * cfg.hashBlockSize, ⟨⟨(Nat.le_div_iff_mul_le hh).mp hbound, a, rfl, haccepts⟩, ?_⟩, ?_⟩
  · rintro l ⟨hl, b, rfl, hb⟩
    exact Nat.mul_le_mul_right _ (hgreatest ⟨(Nat.le_div_iff_mul_le hh).mpr hl, hb⟩)
  · rw [hfind, hitRows, Nat.mul_div_cancel _ hh]

include hg hpool in
/-- A bound is returned as it is exactly when it is accepted. -/
theorem find_eq_iff {length : ℕ} (hcovered : length ≤ blockHashes.length * cfg.hashBlockSize)
    (rows : List (Row n)) :
    CacheHit.findLongestCacheHit pool g blockHashes length false cfg.cacheHitAlignmentTokens =
        .ok (rows, length) ↔
      Accepts cfg pool blockHashes g length ∧ rows = hitRows cfg pool blockHashes g length := by
  obtain ⟨l, ⟨⟨hl, haccepts⟩, hgreatest⟩, hfind⟩ := find_greatest hg hpool hcovered
  rw [hfind]
  constructor
  · intro h
    obtain ⟨rfl, rfl⟩ := Prod.mk.inj (Except.ok.inj h)
    exact ⟨haccepts, rfl⟩
  · rintro ⟨h, rfl⟩
    obtain rfl : l = length := le_antisymm hl (hgreatest ⟨le_rfl, h⟩)
    rfl

theorem Accepts.aligned {length : ℕ} (h : Accepts cfg pool blockHashes g length) :
    cfg.cacheHitAlignmentTokens ∣ length := by
  obtain ⟨a, rfl, hal, -⟩ := h
  rw [cfg.alignment_eq]
  exact Nat.mul_dvd_mul_right hal _

include hg in
/-- Whole blocks of a full-attention hit are accepted as well. -/
theorem Accepts.floor (hkind : g.kind = .fullAttention) (hscale : cfg.scale g ∣ cfg.alignUnits)
    {length hit : ℕ} (h : Accepts cfg pool blockHashes g hit) (hle : length ≤ hit)
    (haligned : cfg.cacheHitAlignmentTokens ∣ length) :
    Accepts cfg pool blockHashes g length ∧
      (hitRows cfg pool blockHashes g hit).take (cdiv length g.blockSize) =
        hitRows cfg pool blockHashes g length := by
  have hh := cfg.hashBlockSize.pos
  have hs := cfg.scale_pos hg
  obtain ⟨a, rfl, -, hfull⟩ := h
  obtain ⟨b, rfl⟩ := haligned
  rw [cfg.alignment_eq, Nat.mul_right_comm] at hle ⊢
  have hbound := Nat.le_of_mul_le_mul_right hle hh
  simp only [hkind] at hfull
  obtain ⟨hfloor, hrows⟩ := hfull.floor hs (hscale.mul_right b) hbound
  refine ⟨⟨_, rfl, Nat.dvd_mul_right _ _, ?_⟩, ?_⟩
  · simpa only [hkind] using hfloor
  · simpa only [hitRows, unitRows, hkind, Nat.mul_div_cancel _ hh, cfg.blockSize_eq hg,
      cdiv_mul_mul hh hs] using hrows
end

/-! ### Passes over the groups -/

/-- The groups agree on `length`, each on a hit that `accepts` holds of. Full
attention may have a longer hit, which is trimmed; its hits do not grow from one
group to the next. -/
structure Agreed (accepts : SpecGroup → ℕ → Prop) (length : ℕ) (hits : ℕ → ℕ) : Prop where
  inTurn : Antitone hits
  bound : ∀ idx g, cfg.attentionGroups[idx]? = some g →
    length ≤ hits idx ∧ hits idx ≤ maxCacheHitLength
  accepted : ∀ idx g, cfg.attentionGroups[idx]? = some g → accepts g (hits idx)
  whole : ∀ idx g, cfg.attentionGroups[idx]? = some g → g.kind ≠ .fullAttention →
    hits idx = length

/-- What is known in a pass that started at the candidate `m` and has visited
the first `done` groups: lengths that the groups agree on are never passed over,
and a group that is not full attention has been looked up below `m`. -/
structure PassInv (m done : ℕ) (st : LookupState n) : Prop where
  bound : st.currHitLength ≤ m
  common : ∀ l h, Agreed cfg maxCacheHitLength (Accepts cfg pool blockHashes) l h →
    l ≤ st.currHitLength ∧
      ∀ idx g, cfg.attentionGroups[idx]? = some g → st.hits idx = none → h idx ≤ st.currHitLength
  first : ∀ i j, i ≤ j → st.hits i = none → st.hits j = none
  found : ∀ idx hit, st.hits idx = some hit →
    cfg.cacheHitAlignmentTokens ∣ st.currHitLength ∧ st.currHitLength ≤ st.longestHitLength
  hits : ∀ idx g, cfg.attentionGroups[idx]? = some g → ∀ rows hit, st.hits idx = some (rows, hit) →
    rows = hitRows cfg pool blockHashes g hit ∧ Accepts cfg pool blockHashes g hit ∧
      hit ≤ maxCacheHitLength ∧
      ∀ l h, Agreed cfg maxCacheHitLength (Accepts cfg pool blockHashes) l h → h idx ≤ hit
  inTurn : ∀ i j gᵢ gⱼ, i ≤ j → cfg.attentionGroups[i]? = some gᵢ → gᵢ.kind = .fullAttention →
    cfg.attentionGroups[j]? = some gⱼ → gⱼ.kind = .fullAttention → ∀ rᵢ hᵢ rⱼ hⱼ,
      st.hits i = some (rᵢ, hᵢ) → st.hits j = some (rⱼ, hⱼ) → hⱼ ≤ hᵢ
  visited : ∀ idx g, cfg.attentionGroups[idx]? = some g → idx < done →
    ∃ rows hit, st.hits idx = some (rows, hit) ∧ st.currHitLength ≤ hit ∧
      (g.kind ≠ .fullAttention → hit ≤ m)
  last : ∀ idx g, cfg.attentionGroups[idx]? = some g → idx + 1 = done → g.kind ≠ .fullAttention →
    ∃ rows, st.hits idx = some (rows, st.currHitLength)

/-- A lookup that drops nothing moves the candidate to the greatest accepted
length and records the hit. -/
structure LookedUp (g : SpecGroup) (idx : ℕ) (st st' : LookupState n) : Prop where
  greatest : IsGreatest {l | l ≤ st.currHitLength ∧ Accepts cfg pool blockHashes g l}
    st'.currHitLength
  longest : st'.currHitLength ≤ st'.longestHitLength
  hit : st'.hits idx = some (hitRows cfg pool blockHashes g st'.currHitLength, st'.currHitLength)
  other : ∀ j ≠ idx, st'.hits j = st.hits j

/-- The length of a group's hit, and the candidate past the last group. -/
def hitLengthAt (st : LookupState n) (idx : ℕ) : ℕ :=
  if idx < cfg.attentionGroups.length then (st.hits idx).elim st.currHitLength (·.2)
  else st.currHitLength

/-- Where the loop stops: the groups agree on `hitLength`, and on no longer length. -/
structure Settled (hitLength : ℕ) (st : LookupState n) : Prop where
  bound : hitLength ≤ maxCacheHitLength
  aligned : cfg.cacheHitAlignmentTokens ∣ hitLength
  longest : hitLength ≤ st.longestHitLength
  common : ∀ l h, Agreed cfg maxCacheHitLength (Accepts cfg pool blockHashes) l h → l ≤ hitLength
  hits : ∃ h, Agreed cfg maxCacheHitLength (Accepts cfg pool blockHashes) hitLength h ∧
    ∀ idx g, cfg.attentionGroups[idx]? = some g →
      st.hits idx = some (hitRows cfg pool blockHashes g (h idx), h idx)

section
variable {cfg pool blockHashes maxCacheHitLength}
  (hpool : pool.hashBlockSize = cfg.hashBlockSize)
  (hcovered : maxCacheHitLength ≤ blockHashes.length * cfg.hashBlockSize)
  (heagle : ∀ g ∈ cfg.attentionGroups, g.useEagle = false)

include hpool in
theorem lookupGroup_keep {g : SpecGroup} (hg : g ∈ cfg.attentionGroups) (hkeep : g.useEagle = false)
    (idx : ℕ) {st : LookupState n}
    (hcurr : st.currHitLength ≤ blockHashes.length * cfg.hashBlockSize) :
    ∃ st', lookupGroup cfg pool blockHashes maxCacheHitLength g idx st = .ok st' ∧
      LookedUp cfg pool blockHashes g idx st st' := by
  obtain ⟨hit, hgreatest, hfind⟩ := find_greatest hg hpool hcurr
  refine ⟨{
    currHitLength := hit
    longestHitLength := max st.longestHitLength hit
    hits := Function.update st.hits idx (some (hitRows cfg pool blockHashes g hit, hit))
    eagleVerified := if hit < st.currHitLength then fun _ => false else st.eagleVerified }, ?_, ?_⟩
  · simp [lookupGroup, hkeep, hfind, bind, Except.bind, pure, Except.pure]
  · exact ⟨hgreatest, le_max_right _ _, Function.update_self .., fun j hne =>
      Function.update_of_ne hne ..⟩

theorem PassInv.le_of_unseen {m idx j : ℕ} {st : LookupState n} {g : SpecGroup}
    (hinv : PassInv cfg pool blockHashes maxCacheHitLength m idx st)
    (hidx : cfg.attentionGroups[idx]? = some g) (hnone : st.hits j = none) : idx ≤ j := by
  by_contra hlt
  have hlength := (List.getElem?_eq_some_iff.mp hidx).1
  obtain ⟨rows, h, hfound, -⟩ := hinv.visited j _ (getElem?_eq_getElem (by omega)) (by omega)
  simp [hfound] at hnone

theorem LookedUp.unseen {idx j : ℕ} {st st' : LookupState n} {g : SpecGroup}
    (hlookup : LookedUp cfg pool blockHashes g idx st st') (hnone : st'.hits j = none) :
    j ≠ idx ∧ st.hits j = none := by
  have hne : j ≠ idx := by
    rintro rfl
    simp [hlookup.hit] at hnone
  exact ⟨hne, hlookup.other j hne ▸ hnone⟩

/-- The group finds its part of every agreement. -/
theorem PassInv.reach {m idx : ℕ} {st st' : LookupState n} {g : SpecGroup}
    (hinv : PassInv cfg pool blockHashes maxCacheHitLength m idx st)
    (hidx : cfg.attentionGroups[idx]? = some g)
    (hnew : g.kind = .fullAttention → st.hits idx = none)
    (hlookup : LookedUp cfg pool blockHashes g idx st st') (l : ℕ) (h : ℕ → ℕ)
    (hagreed : Agreed cfg maxCacheHitLength (Accepts cfg pool blockHashes) l h) :
    h idx ≤ st'.currHitLength := by
  refine hlookup.greatest.2 ⟨?_, hagreed.accepted idx g hidx⟩
  by_cases hkind : g.kind = .fullAttention
  · exact (hinv.common l h hagreed).2 idx g hidx (hnew hkind)
  · rw [hagreed.whole idx g hidx hkind]
    exact (hinv.common l h hagreed).1

/-- The new hit is not longer than the hits of the full-attention groups before it. -/
theorem PassInv.lookup_inTurn {m idx : ℕ} {st st' : LookupState n} {g : SpecGroup}
    (hinv : PassInv cfg pool blockHashes maxCacheHitLength m idx st)
    (hidx : cfg.attentionGroups[idx]? = some g)
    (hnew : g.kind = .fullAttention → st.hits idx = none)
    (hlookup : LookedUp cfg pool blockHashes g idx st st') {i j : ℕ} {gᵢ gⱼ : SpecGroup}
    (hij : i ≤ j) (hi : cfg.attentionGroups[i]? = some gᵢ) (hfullᵢ : gᵢ.kind = .fullAttention)
    (hj : cfg.attentionGroups[j]? = some gⱼ) (hfullⱼ : gⱼ.kind = .fullAttention)
    {rᵢ rⱼ : List (Row n)} {hᵢ hⱼ : ℕ} (hhitᵢ : st'.hits i = some (rᵢ, hᵢ))
    (hhitⱼ : st'.hits j = some (rⱼ, hⱼ)) : hⱼ ≤ hᵢ := by
  obtain ⟨⟨⟨hle, -⟩, -⟩, -, hhit, hother⟩ := hlookup
  rcases eq_or_ne j idx with rfl | hne
  · obtain ⟨rfl, rfl⟩ := Prod.mk.inj (Option.some.inj (hhitⱼ.symm.trans hhit))
    rcases hij.eq_or_lt with rfl | hlt
    · obtain ⟨-, rfl⟩ := Prod.mk.inj (Option.some.inj (hhitᵢ.symm.trans hhit))
      exact le_rfl
    · obtain ⟨rows, h, hfound, hcurr, -⟩ := hinv.visited i gᵢ hi hlt
      rw [hother i hlt.ne, hfound] at hhitᵢ
      obtain ⟨-, rfl⟩ := Prod.mk.inj (Option.some.inj hhitᵢ)
      exact hle.trans hcurr
  · rw [hother j hne] at hhitⱼ
    rcases eq_or_ne i idx with rfl | hne'
    · obtain rfl : g = gᵢ := Option.some.inj (hidx.symm.trans hi)
      simp [hinv.first i j hij (hnew hfullᵢ)] at hhitⱼ
    · rw [hother i hne'] at hhitᵢ
      exact hinv.inTurn i j gᵢ gⱼ hij hi hfullᵢ hj hfullⱼ rᵢ hᵢ rⱼ hⱼ hhitᵢ hhitⱼ

/-- A lookup moves the invariant past a group that has not been visited. -/
theorem PassInv.lookup {m idx : ℕ} {st st' : LookupState n} {g : SpecGroup}
    (hinv : PassInv cfg pool blockHashes maxCacheHitLength m idx st) (hm : m ≤ maxCacheHitLength)
    (hidx : cfg.attentionGroups[idx]? = some g)
    (hnew : g.kind = .fullAttention → st.hits idx = none)
    (hlookup : LookedUp cfg pool blockHashes g idx st st') :
    PassInv cfg pool blockHashes maxCacheHitLength m (idx + 1) st' := by
  have hreach := hinv.reach hidx hnew hlookup
  obtain ⟨hle, haccepts⟩ := hlookup.greatest.1
  have hhit := hlookup.hit
  have hother := hlookup.other
  have hbound := hinv.bound
  constructor
  case bound => exact hle.trans hbound
  case common =>
    intro l h hagreed
    have hpart := hreach l h hagreed
    refine ⟨(hagreed.bound idx g hidx).1.trans hpart, fun j g' hj hnone => ?_⟩
    have hafter := hinv.le_of_unseen hidx (hlookup.unseen hnone).2
    exact (hagreed.inTurn hafter).trans hpart
  case first =>
    intro i j hij hnone
    obtain ⟨hne, hnone⟩ := hlookup.unseen hnone
    have hafter := hinv.le_of_unseen hidx hnone
    rw [hother j (by omega)]
    exact hinv.first i j hij hnone
  case inTurn =>
    intro i j gᵢ gⱼ hij hi hfullᵢ hj hfullⱼ rᵢ hᵢ rⱼ hⱼ hhitᵢ hhitⱼ
    exact hinv.lookup_inTurn hidx hnew hlookup hij hi hfullᵢ hj hfullⱼ hhitᵢ hhitⱼ
  case found => exact fun _ _ _ => ⟨haccepts.aligned, hlookup.longest⟩
  case hits =>
    intro j g' hj rows h hfound
    rcases eq_or_ne j idx with rfl | hne
    · obtain rfl : g' = g := Option.some.inj (hj.symm.trans hidx)
      obtain ⟨rfl, rfl⟩ := Prod.mk.inj (Option.some.inj (hfound.symm.trans hhit))
      exact ⟨rfl, haccepts, hle.trans (hbound.trans hm), hreach⟩
    · exact hinv.hits j g' hj rows h (hother j hne ▸ hfound)
  case visited =>
    intro j g' hj hlt
    rcases eq_or_ne j idx with rfl | hne
    · exact ⟨_, _, hhit, le_rfl, fun _ => hle.trans hbound⟩
    · obtain ⟨rows, h, hfound, hcurr, hwindow⟩ := hinv.visited j g' hj (by omega)
      exact ⟨rows, h, (hother j hne).trans hfound, hle.trans hcurr, hwindow⟩
  case last =>
    intro j g' hj hdone _
    obtain rfl : j = idx := by omega
    exact ⟨_, hhit⟩

/-- So does the trimming of full attention, which accepts every shorter aligned length. -/
theorem PassInv.trim {m idx : ℕ} {st : LookupState n} {g : SpecGroup}
    (hinv : PassInv cfg pool blockHashes maxCacheHitLength m idx st)
    (hidx : cfg.attentionGroups[idx]? = some g) (hkind : g.kind = .fullAttention)
    {rows : List (Row n)} {hit : ℕ} (hhit : st.hits idx = some (rows, hit)) :
    PassInv cfg pool blockHashes maxCacheHitLength m (idx + 1)
      { st with currHitLength := min st.currHitLength hit } := by
  obtain ⟨-, haccepts, -, hpart⟩ := hinv.hits idx g hidx rows hit hhit
  have hle : min st.currHitLength hit ≤ st.currHitLength := min_le_left _ _
  constructor
  case bound => exact hle.trans hinv.bound
  case common =>
    intro l h hagreed
    obtain ⟨hcurr, hlater⟩ := hinv.common l h hagreed
    have hreach := hpart l h hagreed
    refine ⟨le_min hcurr ((hagreed.bound idx g hidx).1.trans hreach), fun j g' hj hnone => ?_⟩
    have hafter : idx ≤ j := by
      by_contra hlt
      simp [hinv.first j idx (by omega) hnone] at hhit
    exact le_min (hlater j g' hj hnone) ((hagreed.inTurn hafter).trans hreach)
  case first => exact hinv.first
  case inTurn => exact hinv.inTurn
  case found =>
    intro j h hfound
    obtain ⟨haligned, hlongest⟩ := hinv.found j h hfound
    exact ⟨min_rec' (_ ∣ ·) haligned haccepts.aligned, hle.trans hlongest⟩
  case hits => exact hinv.hits
  case visited =>
    intro j g' hj hlt
    rcases eq_or_ne j idx with rfl | hne
    · obtain rfl : g' = g := Option.some.inj (hj.symm.trans hidx)
      exact ⟨rows, hit, hhit, min_le_right _ _, fun h => absurd hkind h⟩
    · obtain ⟨rows', h, hfound, hcurr, hwindow⟩ := hinv.visited j g' hj (by omega)
      exact ⟨rows', h, hfound, hle.trans hcurr, hwindow⟩
  case last =>
    intro j g' hj hdone hwindow
    obtain rfl : j = idx := by omega
    obtain rfl : g' = g := Option.some.inj (hj.symm.trans hidx)
    exact absurd hkind hwindow

include hpool hcovered heagle in
/-- Visiting a group returns and keeps the invariant of the pass. -/
theorem visitGroup_inv {m idx : ℕ} {st : LookupState n} {g : SpecGroup}
    (hinv : PassInv cfg pool blockHashes maxCacheHitLength m idx st) (hm : m ≤ maxCacheHitLength)
    (hidx : cfg.attentionGroups[idx]? = some g) :
    ∃ st', visitGroup cfg pool blockHashes maxCacheHitLength g idx st = .ok st' ∧
      PassInv cfg pool blockHashes maxCacheHitLength m (idx + 1) st' := by
  unfold visitGroup
  split
  · next hit hkind hhit => exact ⟨_, rfl, hinv.trim hidx hkind hhit⟩
  · next hnone =>
    have hg := mem_of_getElem? hidx
    obtain ⟨st', hlookup, hlooked⟩ := lookupGroup_keep hpool hg (heagle g hg) idx
      ((hinv.bound.trans hm).trans hcovered)
    refine ⟨st', hlookup, hinv.lookup hm hidx (fun hkind => ?_) hlooked⟩
    cases hhit : st.hits idx with
    | none => rfl
    | some found => exact absurd hhit (hnone found.1 found.2 hkind)

include hpool hcovered heagle in
/-- A pass over the groups that are left keeps the invariant. -/
theorem lookupPass_inv {m : ℕ} (hm : m ≤ maxCacheHitLength) (groups : List SpecGroup) :
    ∀ (done : ℕ) (st : LookupState n), cfg.attentionGroups.drop done = groups →
      PassInv cfg pool blockHashes maxCacheHitLength m done st →
      ∃ st', lookupPass cfg pool blockHashes maxCacheHitLength (groups.zipIdx done) st = .ok st' ∧
        PassInv cfg pool blockHashes maxCacheHitLength m (done + groups.length) st' := by
  induction groups with
  | nil => exact fun done st _ hinv => ⟨st, rfl, hinv⟩
  | cons g groups ih =>
    intro done st hdrop hinv
    have hidx : cfg.attentionGroups[done]? = some g := by
      rw [← head?_drop, hdrop, head?_cons]
    obtain ⟨st₁, hvisit, hinv₁⟩ := visitGroup_inv hpool hcovered heagle hinv hm hidx
    obtain ⟨st₂, hpass, hinv₂⟩ := ih (done + 1) st₁ (by rw [← drop_drop, hdrop]; rfl) hinv₁
    refine ⟨st₂, ?_, ?_⟩
    · simpa [lookupPass, hvisit, bind, Except.bind] using hpass
    · rwa [length_cons, ← Nat.add_assoc, Nat.add_right_comm]

variable {m : ℕ} {st : LookupState n}

section
variable (hinv : PassInv cfg pool blockHashes maxCacheHitLength m cfg.attentionGroups.length st)
include hinv

section
variable (hm : m ≤ maxCacheHitLength)
include hm

omit hm in
theorem PassInv.hitLengthAt_eq {idx : ℕ} {g : SpecGroup}
    (hidx : cfg.attentionGroups[idx]? = some g) :
    st.hits idx = some (hitRows cfg pool blockHashes g (hitLengthAt cfg st idx),
        hitLengthAt cfg st idx) ∧
      Accepts cfg pool blockHashes g (hitLengthAt cfg st idx) ∧
      hitLengthAt cfg st idx ≤ maxCacheHitLength ∧
      st.currHitLength ≤ hitLengthAt cfg st idx := by
  have hlt := (List.getElem?_eq_some_iff.mp hidx).1
  obtain ⟨rows, hit, hfound, hcurr, -⟩ := hinv.visited idx g hidx hlt
  obtain ⟨rfl, haccepts, hmax, -⟩ := hinv.hits idx g hidx rows hit hfound
  have hat : hitLengthAt cfg st idx = hit := by simp [hitLengthAt, hlt, hfound]
  rw [hat]
  exact ⟨hfound, haccepts, hmax, hcurr⟩

omit hm in
theorem PassInv.agreed
    (hexact : ∀ idx g, cfg.attentionGroups[idx]? = some g → g.kind ≠ .fullAttention →
      ∃ rows, st.hits idx = some (rows, st.currHitLength)) :
    Agreed cfg maxCacheHitLength (Accepts cfg pool blockHashes) st.currHitLength
      (hitLengthAt cfg st) := by
  have hwhole : ∀ idx g, cfg.attentionGroups[idx]? = some g → g.kind ≠ .fullAttention →
      hitLengthAt cfg st idx = st.currHitLength := by
    intro idx g hidx hkind
    obtain ⟨rows, hexact⟩ := hexact idx g hidx hkind
    have hhit := (hinv.hitLengthAt_eq hidx).1
    exact (Prod.mk.inj (Option.some.inj (hhit.symm.trans hexact))).2
  have hle : ∀ idx, st.currHitLength ≤ hitLengthAt cfg st idx := by
    intro idx
    by_cases hlt : idx < cfg.attentionGroups.length
    · exact (hinv.hitLengthAt_eq (getElem?_eq_getElem hlt)).2.2.2
    · simp [hitLengthAt, hlt]
  constructor
  case inTurn =>
    intro i j hij
    by_cases hj : j < cfg.attentionGroups.length
    · have hi : i < cfg.attentionGroups.length := by omega
      by_cases hfull : (cfg.attentionGroups[j]).kind = .fullAttention
      · have hfullᵢ : (cfg.attentionGroups[i]).kind = .fullAttention := by
          rcases hij.eq_or_lt with rfl | hlt
          · exact hfull
          · exact pairwise_iff_getElem.mp cfg.full_first i j hi hj hlt hfull
        have hgᵢ := getElem?_eq_getElem hi
        have hgⱼ := getElem?_eq_getElem hj
        exact hinv.inTurn i j _ _ hij hgᵢ hfullᵢ hgⱼ hfull _ _ _ _
          (hinv.hitLengthAt_eq hgᵢ).1 (hinv.hitLengthAt_eq hgⱼ).1
      · rw [hwhole j _ (getElem?_eq_getElem hj) hfull]
        exact hle i
    · have hend : hitLengthAt cfg st j = st.currHitLength := by simp [hitLengthAt, hj]
      exact hend ▸ hle i
  case bound => exact fun idx g hidx => ⟨hle idx, (hinv.hitLengthAt_eq hidx).2.2.1⟩
  case accepted => exact fun idx g hidx => (hinv.hitLengthAt_eq hidx).2.1
  case whole => exact hwhole

/-- A pass that ends with all hits at the candidate has found the greatest common length. -/
theorem PassInv.settled
    (hexact : ∀ idx g, cfg.attentionGroups[idx]? = some g → g.kind ≠ .fullAttention →
      ∃ rows, st.hits idx = some (rows, st.currHitLength)) :
    Settled cfg pool blockHashes maxCacheHitLength st.currHitLength st := by
  have hpos : 0 < cfg.attentionGroups.length := length_pos_iff.mpr cfg.attentionGroups_ne_nil
  obtain ⟨rows, hit, hfound, -⟩ := hinv.visited 0 _ (getElem?_eq_getElem hpos) hpos
  obtain ⟨haligned, hlongest⟩ := hinv.found _ _ hfound
  exact ⟨hinv.bound.trans hm, haligned, hlongest, fun l h hagreed => (hinv.common l h hagreed).1,
    hitLengthAt cfg st, hinv.agreed hexact, fun idx g hidx => (hinv.hitLengthAt_eq hidx).1⟩

/-- A pass that changes nothing has looked up every group at the candidate. -/
theorem PassInv.settled_of_stable (hstable : m ≤ st.currHitLength) :
    Settled cfg pool blockHashes maxCacheHitLength st.currHitLength st := by
  refine hinv.settled hm fun idx g hidx hwindow => ?_
  have hlt := (List.getElem?_eq_some_iff.mp hidx).1
  obtain ⟨rows, hit, hfound, hcurr, hbound⟩ := hinv.visited idx g hidx hlt
  obtain rfl : hit = st.currHitLength :=
    le_antisymm ((hbound hwindow).trans hstable) hcurr
  exact ⟨rows, hfound⟩

/-- With full attention and one other group a single pass settles. -/
theorem PassInv.settled_of_simple (hsimple : isSimpleHybrid cfg = true) :
    Settled cfg pool blockHashes maxCacheHitLength st.currHitLength st := by
  unfold isSimpleHybrid at hsimple
  split at hsimple
  · next full other hgroups =>
    refine hinv.settled hm fun idx g hidx hwindow => ?_
    have hlen : cfg.attentionGroups.length = 2 := by rw [hgroups]; rfl
    have hlast : idx = 1 := by
      have hlt := (List.getElem?_eq_some_iff.mp hidx).1
      rcases Nat.eq_zero_or_pos idx with rfl | hpos
      · rw [hgroups] at hidx
        obtain rfl : full = g := Option.some.inj hidx
        exact absurd (of_decide_eq_true hsimple) hwindow
      · omega
    exact hinv.last idx g hidx (by omega) hwindow
  · cases hsimple
end

end

theorem PassInv.restart {m done : ℕ}
    (hinv : PassInv cfg pool blockHashes maxCacheHitLength m done st) :
    PassInv cfg pool blockHashes maxCacheHitLength st.currHitLength 0 st :=
  { hinv with bound := le_rfl, visited := nofun, last := nofun }

variable (cfg pool blockHashes maxCacheHitLength) in
theorem passInv_start : PassInv cfg pool blockHashes maxCacheHitLength maxCacheHitLength 0
    { currHitLength := maxCacheHitLength, longestHitLength := 0, hits := fun _ => none
      eagleVerified := fun _ => false } where
  bound := le_rfl
  common l h hagreed := by
    have hpos : 0 < cfg.attentionGroups.length := length_pos_iff.mpr cfg.attentionGroups_ne_nil
    obtain ⟨hle, hmax⟩ := hagreed.bound 0 _ (getElem?_eq_getElem hpos)
    exact ⟨hle.trans hmax, fun idx g hidx _ => (hagreed.bound idx g hidx).2⟩
  first _ _ _ _ := rfl
  found := nofun
  hits := nofun
  inTurn := nofun
  visited := nofun
  last := nofun

include hpool hcovered heagle in
/-- The loop ends at a settled length, since every other pass shortens the candidate. -/
theorem lookupLoop_settled (fuel : ℕ) : ∀ (m : ℕ) (st : LookupState n), m < fuel →
    m ≤ maxCacheHitLength →
    PassInv cfg pool blockHashes maxCacheHitLength m 0 { st with currHitLength := m } →
    ∃ hitLength st', lookupLoop cfg pool blockHashes maxCacheHitLength fuel m st =
        .ok (hitLength, st') ∧
      Settled cfg pool blockHashes maxCacheHitLength hitLength st' := by
  induction fuel with
  | zero => exact fun m st hfuel => absurd hfuel (Nat.not_lt_zero m)
  | succ fuel ih =>
    intro m st hfuel hm hinv
    obtain ⟨st', hpass, hinv'⟩ :=
      lookupPass_inv hpool hcovered heagle hm cfg.attentionGroups 0 _ rfl hinv
    rw [Nat.zero_add] at hinv'
    by_cases hstable : m ≤ st'.currHitLength
    · refine ⟨m, st', ?_, ?_⟩
      · simp [lookupLoop, hpass, hstable, bind, Except.bind, pure, Except.pure]
      · exact le_antisymm hinv'.bound hstable ▸ hinv'.settled_of_stable hm hstable
    by_cases hsimple : isSimpleHybrid cfg = true
    · refine ⟨st'.currHitLength, st', ?_, hinv'.settled_of_simple hm hsimple⟩
      simp [lookupLoop, hpass, hstable, hsimple, bind, Except.bind, pure, Except.pure]
    · obtain ⟨hitLength, st'', hloop, hsettled⟩ := ih st'.currHitLength st' (by omega)
        (hinv'.bound.trans hm) hinv'.restart
      refine ⟨hitLength, st'', ?_, hsettled⟩
      simp [lookupLoop, hpass, hstable, hsimple, hloop, bind, Except.bind]
end

/-! ### The agreed hit -/

/-- The lookup of the group, bounded by `length`, returns all of it. -/
def Confirms (g : SpecGroup) (length : ℕ) (rows : List (Row n)) : Prop :=
  CacheHit.findLongestCacheHit pool g blockHashes length false cfg.cacheHitAlignmentTokens =
    .ok (rows, length)

/-- Hits of full attention may end inside a block. -/
def FineGrainedFull (g : SpecGroup) : Prop :=
  g.kind = .fullAttention ∧ cfg.enablePartialHashHits = true ∧ cfg.hashBlockSize < g.blockSize

theorem Agreed.mono {cfg : LookupConfig} {maxCacheHitLength length : ℕ} {hits : ℕ → ℕ}
    {P Q : SpecGroup → ℕ → Prop} (h : Agreed cfg maxCacheHitLength P length hits)
    (himp : ∀ g ∈ cfg.attentionGroups, ∀ l ≤ maxCacheHitLength, P g l → Q g l) :
    Agreed cfg maxCacheHitLength Q length hits :=
  { h with
    accepted := fun idx g hidx =>
      himp g (mem_of_getElem? hidx) _ (h.bound idx g hidx).2 (h.accepted idx g hidx) }

theorem fullAndState_ids_disjoint :
    [SpecGroup.single .fullAttention 4 0 false, .single .mamba 4 1 false].Pairwise
      fun a b => ∀ id ∈ a.groupIds, id ∉ b.groupIds := by
  simp [SpecGroup.single]

/-- Full attention and Mamba with blocks of 4 tokens and hashes of 2. -/
def fullAndState : LookupConfig where
  hashBlockSize := 2
  schedulerBlockSize := 4
  enablePartialHashHits := true
  attentionGroups :=
    [.single .fullAttention 4 0 false, .single .mamba 4 1 false]
  attentionGroups_ne_nil := by simp
  hash_dvd := by decide
  block_dvd := by decide
  fine_supported := by decide
  full_first := by decide
  ids_disjoint := fullAndState_ids_disjoint

/-- The full block is cached for full attention, the state in its middle for Mamba. -/
def blockAndInnerState : List BlockHashWithGroupId :=
  [makeBlockHashWithGroupId [1] 0, makeBlockHashWithGroupId [0] 1]

theorem twoFull_ids_disjoint :
    [SpecGroup.single .fullAttention 4 0 false, .single .fullAttention 4 1 false].Pairwise
      fun a b => ∀ id ∈ a.groupIds, id ∉ b.groupIds := by
  simp [SpecGroup.single]

def twoFull : LookupConfig :=
  { fullAndState with
    attentionGroups := [.single .fullAttention 4 0 false, .single .fullAttention 4 1 false]
    attentionGroups_ne_nil := by simp
    hash_dvd := by decide
    block_dvd := by decide
    fine_supported := by decide
    full_first := by decide
    ids_disjoint := twoFull_ids_disjoint }

/-- The first half of the block for the first group, the block for the second. -/
def halfAndBlock : List BlockHashWithGroupId :=
  [makeBlockHashWithGroupId [0] 0, makeBlockHashWithGroupId [1] 1]

end Vllm.HybridLookup
