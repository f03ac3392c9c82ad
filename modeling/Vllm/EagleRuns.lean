import Vllm.EagleDrop

/-!
Passes of the hybrid lookup with EAGLE. A group that is in the verified set, and
full attention that was looked up before, take the candidate without dropping a
unit again. The verified set is emptied only when a lookup that drops nothing
shortens the candidate, so a group may be in it although another group has
shortened the candidate since. The returned hit has every drop verified if no
candidate is taken on such trust that the dropping lookup would not return.
-/
namespace Vllm.EagleRuns

open BlockHashing BlockHashMap CacheHit LongestHit HybridLookup EagleDrop List Function
open Pool hiding resolveBlockHashes

variable {n : ℕ} {cfg : LookupConfig} {pool : BlockPool n} {blockHashes : List BlockHash}
  {maxCacheHitLength : ℕ} {g : SpecGroup} {idx : ℕ} {st st' : LookupState n}

/-! ### Steps of a pass -/

/-- What one lookup does to the variables: it drops once for an EAGLE group, then the group is
verified. -/
theorem lookupGroup_ok (h : lookupGroup cfg pool blockHashes maxCacheHitLength g idx st = .ok st') :
    ∃ rows, st'.hits = Function.update st.hits idx (some (rows, st'.currHitLength)) ∧
      (g.useEagle = true ∧ st.eagleVerified idx = false ∧
          CacheHit.findLongestCacheHit pool g blockHashes
            (if g.kind = .mamba then st.currHitLength
              else min (st.currHitLength + eagleMargin cfg g) maxCacheHitLength) true
            cfg.cacheHitAlignmentTokens = .ok (rows, st'.currHitLength) ∧
          st'.eagleVerified = Function.update st.eagleVerified idx true ∨
        (g.useEagle = false ∨ st.eagleVerified idx = true) ∧
          CacheHit.findLongestCacheHit pool g blockHashes st.currHitLength false
            cfg.cacheHitAlignmentTokens = .ok (rows, st'.currHitLength) ∧
          st'.eagleVerified =
            if st'.currHitLength < st.currHitLength then fun _ => false else st.eagleVerified) := by
  unfold lookupGroup at h
  cases hdrop : g.useEagle && !st.eagleVerified idx with
  | true =>
    simp only [Bool.and_eq_true, Bool.not_eq_true'] at hdrop
    simp only [hdrop, Bool.not_false, Bool.and_self, true_and, if_true, ite_not, bind, Except.bind,
      pure, Except.pure] at h
    split at h
    · cases h
    · next found hfind =>
      cases h
      exact ⟨found.1, rfl, .inl ⟨hdrop.1, hdrop.2, hfind, rfl⟩⟩
  | false =>
    simp only [hdrop, Bool.false_eq_true, false_and, if_false, bind, Except.bind, pure,
      Except.pure] at h
    split at h
    · cases h
    · next found hfind =>
      cases h
      have hkeep := (Bool.and_eq_false_iff.mp hdrop).imp id fun h => by simpa using h
      exact ⟨found.1, rfl, .inr ⟨hkeep, hfind, rfl⟩⟩

/-- A group is trimmed, when it is full attention with a hit, or looked up. -/
theorem visitGroup_ok (h : visitGroup cfg pool blockHashes maxCacheHitLength g idx st = .ok st') :
    (g.kind = .fullAttention ∧ ∃ rows hit, st.hits idx = some (rows, hit) ∧
        st' = { st with currHitLength := min st.currHitLength hit }) ∨
      ((g.kind = .fullAttention → st.hits idx = none) ∧
        lookupGroup cfg pool blockHashes maxCacheHitLength g idx st = .ok st') := by
  unfold visitGroup at h
  split at h
  · next rows hit hkind hhit =>
    cases h
    exact .inl ⟨hkind, rows, hit, hhit, rfl⟩
  · next hnone =>
    refine Or.inr ⟨fun hkind => ?_, h⟩
    cases hhit : st.hits idx with
    | none => rfl
    | some found => exact absurd hhit (hnone found.1 found.2 hkind)

section
variable (hg : g ∈ cfg.attentionGroups) (hpool : pool.hashBlockSize = cfg.hashBlockSize)
include hg hpool

theorem lookupGroup_le
    (h : lookupGroup cfg pool blockHashes maxCacheHitLength g idx st = .ok st') :
    st'.currHitLength ≤ st.currHitLength := by
  obtain ⟨rows, -, ⟨-, -, hfind, -⟩ | ⟨-, hfind, -⟩⟩ := lookupGroup_ok h
  · by_cases hkind : g.kind = .mamba
    · rw [if_pos hkind, find_mamba hkind] at hfind
      exact find_keep_le hg hpool hfind
    · rw [if_neg hkind] at hfind
      rcases Nat.eq_zero_or_pos st'.currHitLength with hzero | hpos
      · omega
      · have hroom := (find_drop_le hg hpool hkind hfind hpos).trans (min_le_left _ _)
        omega
  · exact find_keep_le hg hpool hfind

theorem visitGroup_le
    (h : visitGroup cfg pool blockHashes maxCacheHitLength g idx st = .ok st') :
    st'.currHitLength ≤ st.currHitLength := by
  rcases visitGroup_ok h with ⟨-, rows, hit, -, rfl⟩ | ⟨-, hlookup⟩
  · exact min_le_left _ _
  · exact lookupGroup_le hg hpool hlookup
end

theorem lookupPass_cons_ok {groups : List (SpecGroup × ℕ)}
    (h : lookupPass cfg pool blockHashes maxCacheHitLength ((g, idx) :: groups) st = .ok st') :
    ∃ st₁, visitGroup cfg pool blockHashes maxCacheHitLength g idx st = .ok st₁ ∧
      lookupPass cfg pool blockHashes maxCacheHitLength groups st₁ = .ok st' := by
  simp only [lookupPass, bind, Except.bind] at h
  split at h
  · cases h
  · next st₁ hvisit => exact ⟨st₁, hvisit, h⟩

/-- A pass only shortens the candidate. -/
theorem lookupPass_le (hpool : pool.hashBlockSize = cfg.hashBlockSize)
    (groups : List (SpecGroup × ℕ)) (hgroups : ∀ p ∈ groups, p.1 ∈ cfg.attentionGroups)
    (h : lookupPass cfg pool blockHashes maxCacheHitLength groups st = .ok st') :
    st'.currHitLength ≤ st.currHitLength := by
  induction groups generalizing st with
  | nil =>
    cases h
    exact le_rfl
  | cons p groups ih =>
    obtain ⟨g, idx⟩ := p
    obtain ⟨st₁, hvisit, hrest⟩ := lookupPass_cons_ok h
    have hfirst := visitGroup_le (hgroups _ mem_cons_self) hpool hvisit
    exact (ih (fun p hp => hgroups p (mem_cons_of_mem _ hp)) hrest).trans hfirst

/-! ### Candidates taken on trust -/

section
variable (cfg pool blockHashes maxCacheHitLength)

/-- The group takes the candidate without a dropping lookup of its own: it is in
the verified set, or it is full attention that was looked up before. -/
def OnTrust (g : SpecGroup) (idx : ℕ) (st : LookupState n) : Prop :=
  g.useEagle = true ∧ g.kind ≠ .mamba ∧
    (st.eagleVerified idx = true ∨ g.kind = .fullAttention ∧ (st.hits idx).isSome = true)

/-- A candidate that a group leaves as it is, on trust, has the drop verified. -/
def PassVerified : List (SpecGroup × ℕ) → LookupState n → Prop
  | [], _ => True
  | (g, idx) :: groups, st => ∀ st',
    visitGroup cfg pool blockHashes maxCacheHitLength g idx st = .ok st' →
      (OnTrust g idx st → st'.currHitLength = st.currHitLength →
        DropVerified cfg pool blockHashes g maxCacheHitLength st.currHitLength) ∧
      PassVerified groups st'

/-- So it is in all passes from the candidate `m` until one leaves the candidate. -/
def PassesVerified : ℕ → ℕ → LookupState n → Prop
  | 0, _, _ => True
  | fuel + 1, m, st =>
    0 < m → PassVerified cfg pool blockHashes maxCacheHitLength cfg.attentionGroups.zipIdx
        { st with currHitLength := m } ∧
      ∀ st', lookupPass cfg pool blockHashes maxCacheHitLength cfg.attentionGroups.zipIdx
        { st with currHitLength := m } = .ok st' → st'.currHitLength < m →
          PassesVerified fuel st'.currHitLength st'

def startState (n maxCacheHitLength : ℕ) : LookupState n where
  currHitLength := maxCacheHitLength
  longestHitLength := 0
  hits := fun _ => none
  eagleVerified := fun _ => false

/-- The passes of the lookup for these hashes and this bound. With full attention
and one other group the code makes one pass and takes its candidate for the
result; a second pass stands for this. -/
def TrustVerified : Prop :=
  PassesVerified cfg pool blockHashes maxCacheHitLength
    (if isSimpleHybrid cfg then 2 else maxCacheHitLength + 1) maxCacheHitLength
    (startState n maxCacheHitLength)

/-- A second pass leaves the candidate of the first one as it is. -/
def EndsInTwoPasses : Prop := ∀ st₁ st₂ : LookupState n,
  lookupPass cfg pool blockHashes maxCacheHitLength cfg.attentionGroups.zipIdx
      (startState n maxCacheHitLength) = .ok st₁ →
    lookupPass cfg pool blockHashes maxCacheHitLength cfg.attentionGroups.zipIdx st₁ = .ok st₂ →
      st₁.currHitLength ≤ st₂.currHitLength
end

/-- A group that leaves the candidate as it is has its drop verified there. -/
theorem visitGroup_verified (heagle : g.useEagle = true) (hkind : g.kind ≠ .mamba)
    (h : visitGroup cfg pool blockHashes maxCacheHitLength g idx st = .ok st')
    (hsame : st'.currHitLength = st.currHitLength)
    (htrust : OnTrust g idx st →
      DropVerified cfg pool blockHashes g maxCacheHitLength st.currHitLength) :
    DropVerified cfg pool blockHashes g maxCacheHitLength st.currHitLength := by
  rcases visitGroup_ok h with ⟨hfull, rows, hit, hhit, -⟩ | ⟨-, hlookup⟩
  · exact htrust ⟨heagle, hkind, .inr ⟨hfull, by simp [hhit]⟩⟩
  · obtain ⟨rows, -, ⟨-, -, hfind, -⟩ | ⟨hkeep, -, -⟩⟩ := lookupGroup_ok hlookup
    · rw [if_neg hkind, hsame] at hfind
      exact ⟨rows, hfind⟩
    · have hflag : st.eagleVerified idx = true := by simpa [heagle] using hkeep
      exact htrust ⟨heagle, hkind, .inl hflag⟩

section
variable (hpool : pool.hashBlockSize = cfg.hashBlockSize)
include hpool

/-- A pass that leaves the candidate as it is has all drops verified there. -/
theorem lookupPass_verified (groups : List (SpecGroup × ℕ))
    (hgroups : ∀ p ∈ groups, p.1 ∈ cfg.attentionGroups)
    (hverified : PassVerified cfg pool blockHashes maxCacheHitLength groups st)
    (h : lookupPass cfg pool blockHashes maxCacheHitLength groups st = .ok st')
    (hstable : st.currHitLength ≤ st'.currHitLength) :
    ∀ p ∈ groups, p.1.useEagle = true → p.1.kind ≠ .mamba →
      DropVerified cfg pool blockHashes p.1 maxCacheHitLength st.currHitLength := by
  induction groups generalizing st with
  | nil => exact fun p hp => absurd hp not_mem_nil
  | cons p groups ih =>
    obtain ⟨g, idx⟩ := p
    obtain ⟨st₁, hvisit, hrest⟩ := lookupPass_cons_ok h
    have hgroups' : ∀ p ∈ groups, p.1 ∈ cfg.attentionGroups :=
      fun p hp => hgroups p (mem_cons_of_mem _ hp)
    have hfirst := visitGroup_le (hgroups _ mem_cons_self) hpool hvisit
    have hlater := lookupPass_le hpool groups hgroups' hrest
    have hsame : st₁.currHitLength = st.currHitLength := by omega
    obtain ⟨htrust, hverified₁⟩ := hverified st₁ hvisit
    intro p hp heagle hkind
    rcases mem_cons.mp hp with rfl | hp
    · exact visitGroup_verified heagle hkind hvisit hsame fun hon => htrust hon hsame
    · rw [← hsame] at hstable ⊢
      exact ih hgroups' hverified₁ hrest hstable p hp heagle hkind

end

/-- A visit gives the other groups neither a verification nor a hit. -/
theorem visitGroup_fresh {j : ℕ} (hj : j ≠ idx)
    (h : visitGroup cfg pool blockHashes maxCacheHitLength g idx st = .ok st')
    (hflag : st.eagleVerified j = false) (hhit : st.hits j = none) :
    st'.eagleVerified j = false ∧ st'.hits j = none := by
  rcases visitGroup_ok h with ⟨-, rows, hit, -, rfl⟩ | ⟨-, hlookup⟩
  · exact ⟨hflag, hhit⟩
  · obtain ⟨rows, hhits, ⟨-, -, -, hflags⟩ | ⟨-, -, hflags⟩⟩ := lookupGroup_ok hlookup
    · rw [hhits, hflags, update_of_ne hj, update_of_ne hj]
      exact ⟨hflag, hhit⟩
    · rw [hhits, hflags, update_of_ne hj]
      refine ⟨?_, hhit⟩
      split_ifs
      · rfl
      · exact hflag

/-- In a pass over groups that were not visited before nothing is taken on trust. -/
theorem passVerified_first (groups : List (SpecGroup × ℕ)) (hnodup : (groups.map Prod.snd).Nodup)
    (hfresh : ∀ p ∈ groups, st.eagleVerified p.2 = false ∧ st.hits p.2 = none) :
    PassVerified cfg pool blockHashes maxCacheHitLength groups st := by
  induction groups generalizing st with
  | nil => trivial
  | cons p groups ih =>
    obtain ⟨g, idx⟩ := p
    obtain ⟨hnotMem, hnodup⟩ := nodup_cons.mp hnodup
    obtain ⟨hflag, hhit⟩ := hfresh _ mem_cons_self
    intro st' hvisit
    refine ⟨fun hon => ?_, ih hnodup fun p hp => ?_⟩
    · rcases hon.2.2 with hverified | ⟨-, hlooked⟩
      · simp [hflag] at hverified
      · simp [hhit] at hlooked
    · have hne : p.2 ≠ idx := fun heq => hnotMem (mem_map.mpr ⟨p, hp, heq⟩)
      obtain ⟨hflag', hhit'⟩ := hfresh p (mem_cons_of_mem _ hp)
      exact visitGroup_fresh hne hvisit hflag' hhit'

/-! ### Full attention and one other group -/

theorem isSimpleHybrid_groups (hsimple : isSimpleHybrid cfg = true) :
    ∃ full other, cfg.attentionGroups = [full, other] ∧ full.kind = .fullAttention := by
  unfold isSimpleHybrid at hsimple
  split at hsimple
  · next full other hgroups => exact ⟨full, other, hgroups, of_decide_eq_true hsimple⟩
  · cases hsimple

theorem visitGroup_trim (hkind : g.kind = .fullAttention) {rows : List (Row n)} {hit : ℕ}
    (hhit : st.hits idx = some (rows, hit)) (hle : st.currHitLength ≤ hit) :
    visitGroup cfg pool blockHashes maxCacheHitLength g idx st = .ok st := by
  simp [visitGroup, hkind, hhit, Nat.min_eq_left hle]

theorem visitGroup_first (hnone : st.hits idx = none)
    (h : visitGroup cfg pool blockHashes maxCacheHitLength g idx st = .ok st') :
    lookupGroup cfg pool blockHashes maxCacheHitLength g idx st = .ok st' := by
  rcases visitGroup_ok h with ⟨-, rows, hit, hhit, -⟩ | ⟨-, hlookup⟩
  · simp [hnone] at hhit
  · exact hlookup

/-- A lookup without a drop that accepts the candidate leaves it as it is. -/
theorem visitGroup_accepted {window : ℕ+} (hkind : g.kind = .slidingWindow window)
    (hflag : st.eagleVerified idx = true) {rows : List (Row n)}
    (hfind : CacheHit.findLongestCacheHit pool g blockHashes st.currHitLength false
      cfg.cacheHitAlignmentTokens = .ok (rows, st.currHitLength)) :
    ∃ st', visitGroup cfg pool blockHashes maxCacheHitLength g idx st = .ok st' ∧
      st'.currHitLength = st.currHitLength := by
  refine ⟨{ st with
    longestHitLength := max st.longestHitLength st.currHitLength
    hits := update st.hits idx (some (rows, st.currHitLength)) }, ?_, rfl⟩
  simp [visitGroup, lookupGroup, hkind, hflag, hfind, bind, Except.bind, pure, Except.pure]

theorem covers_mono {l bound : ℕ} (hle : l ≤ bound) (h : Covers cfg g blockHashes bound) :
    Covers cfg g blockHashes l := fun hnotfull hcoarse =>
  (Nat.div_le_div_right (Nat.div_le_div_right hle)).trans (h hnotfull hcoarse)

section
variable (hg : g ∈ cfg.attentionGroups) (hpool : pool.hashBlockSize = cfg.hashBlockSize)
include hg hpool

/-- The group looked up last has its drop verified, or would take the candidate on
trust if it were visited again. -/
theorem lookup_again (heagle : g.useEagle = true) (hkind : g.kind ≠ .mamba)
    (hfresh : st.eagleVerified idx = false)
    (h : lookupGroup cfg pool blockHashes maxCacheHitLength g idx st = .ok st')
    (hpos : 0 < st'.currHitLength) :
    DropVerified cfg pool blockHashes g maxCacheHitLength st'.currHitLength ∨
      OnTrust g idx st' ∧ ∃ st'', visitGroup cfg pool blockHashes maxCacheHitLength g idx st' =
        .ok st'' ∧ st''.currHitLength = st'.currHitLength := by
  obtain ⟨rows, hhits, ⟨-, -, hfind, hflags⟩ | ⟨hkeep, -, -⟩⟩ := lookupGroup_ok h
  · rw [if_neg hkind] at hfind
    have hhit : st'.hits idx = some (rows, st'.currHitLength) := by rw [hhits, update_self]
    have hflag : st'.eagleVerified idx = true := by rw [hflags, update_self]
    cases hk : g.kind with
    | mamba => exact absurd hk hkind
    | fullAttention =>
      exact .inr ⟨⟨heagle, hkind, .inl hflag⟩, st', visitGroup_trim hk hhit le_rfl, rfl⟩
    | slidingWindow window =>
      rcases findWindow_verified_or_accepted hg hpool hk (min_le_right _ _) hfind hpos with
        hverified | haccepts
      · exact .inl hverified
      · have hroom := find_drop_le hg hpool hkind hfind hpos
        have hcovers := find_covers hg hpool hfind
        obtain ⟨rows', hagain⟩ :=
          find_accepted hg hpool (covers_mono (by omega) hcovers) haccepts
        exact .inr ⟨⟨heagle, hkind, .inl hflag⟩, visitGroup_accepted hk hflag hagain⟩
  · simp [heagle, hfresh] at hkeep
end

variable (hpool : pool.hashBlockSize = cfg.hashBlockSize)
include hpool

/-- The one pass over full attention and another group looks both up, and full attention
would be trimmed to the candidate in a second one. -/
theorem simple_pass {full other : SpecGroup} (hgroups : cfg.attentionGroups = [full, other])
    (hfull : full.kind = .fullAttention)
    (h : lookupPass cfg pool blockHashes maxCacheHitLength cfg.attentionGroups.zipIdx st = .ok st')
    (hnone : ∀ idx, st.hits idx = none) (hfresh : ∀ idx, st.eagleVerified idx = false) :
    visitGroup cfg pool blockHashes maxCacheHitLength full 0 st' = .ok st' ∧
      (st'.hits 0).isSome = true ∧ ∃ st₁, st₁.eagleVerified 1 = false ∧
        lookupGroup cfg pool blockHashes maxCacheHitLength other 1 st₁ = .ok st' := by
  have hmem : other ∈ cfg.attentionGroups := by simp [hgroups]
  have hzip : cfg.attentionGroups.zipIdx = [(full, 0), (other, 1)] := by simp [hgroups]
  rw [hzip] at h
  obtain ⟨st₁, hvisit, hrest⟩ := lookupPass_cons_ok h
  obtain ⟨st₂, hvisit₂, hend⟩ := lookupPass_cons_ok hrest
  obtain rfl : st₂ = st' := Except.ok.inj hend
  obtain ⟨rows, hhits, hcases⟩ := lookupGroup_ok (visitGroup_first (hnone 0) hvisit)
  have hflag : st₁.eagleVerified 1 = false := by
    rcases hcases with ⟨-, -, -, hflags⟩ | ⟨-, -, hflags⟩
    · simp [hflags, hfresh]
    · rw [hflags]
      split_ifs
      · rfl
      · exact hfresh 1
  have hlookup := visitGroup_first (by simp [hhits, hnone]) hvisit₂
  obtain ⟨rows₂, hhits₂, -⟩ := lookupGroup_ok hlookup
  have hhit : st₂.hits 0 = some (rows, st₁.currHitLength) := by simp [hhits₂, hhits]
  have hle := lookupGroup_le hmem hpool hlookup
  exact ⟨visitGroup_trim hfull hhit hle, by simp [hhit], st₁, hflag, hlookup⟩

/-- With full attention and one other group the second pass would not shorten
the candidate. -/
theorem simple_verified {full other : SpecGroup} (hgroups : cfg.attentionGroups = [full, other])
    (hfull : full.kind = .fullAttention)
    (h : lookupPass cfg pool blockHashes maxCacheHitLength cfg.attentionGroups.zipIdx st = .ok st')
    (hnone : ∀ idx, st.hits idx = none) (hfresh : ∀ idx, st.eagleVerified idx = false)
    (hverified : PassVerified cfg pool blockHashes maxCacheHitLength cfg.attentionGroups.zipIdx st')
    (hpos : 0 < st'.currHitLength) :
    ∀ g ∈ cfg.attentionGroups, g.useEagle = true → g.kind ≠ .mamba →
      DropVerified cfg pool blockHashes g maxCacheHitLength st'.currHitLength := by
  have hmem : other ∈ cfg.attentionGroups := by simp [hgroups]
  have hzip : cfg.attentionGroups.zipIdx = [(full, 0), (other, 1)] := by simp [hgroups]
  obtain ⟨htrim, hhit, st₁, hflag, hlookup⟩ := simple_pass hpool hgroups hfull h hnone hfresh
  rw [hzip] at hverified
  obtain ⟨htrust, hother⟩ := hverified st' htrim
  intro g hg heagle hkind
  rw [hgroups, mem_pair] at hg
  rcases hg with rfl | rfl
  · exact htrust ⟨heagle, hkind, .inr ⟨hfull, hhit⟩⟩ rfl
  · rcases lookup_again hmem hpool heagle hkind hflag hlookup hpos with
      hdone | ⟨hon, st₃, hagain, hsame⟩
    · exact hdone
    · exact (hother st₃ hagain).1 hon hsame

/-- When both drops are verified at the candidate, the second pass would take nothing wrong
on trust. -/
theorem simple_passVerified {full other : SpecGroup} (hgroups : cfg.attentionGroups = [full, other])
    (hfull : full.kind = .fullAttention)
    (h : lookupPass cfg pool blockHashes maxCacheHitLength cfg.attentionGroups.zipIdx st = .ok st')
    (hnone : ∀ idx, st.hits idx = none) (hfresh : ∀ idx, st.eagleVerified idx = false)
    (hdrop : ∀ g ∈ cfg.attentionGroups, g.useEagle = true → g.kind ≠ .mamba →
      DropVerified cfg pool blockHashes g maxCacheHitLength st'.currHitLength) :
    PassVerified cfg pool blockHashes maxCacheHitLength cfg.attentionGroups.zipIdx st' := by
  have hzip : cfg.attentionGroups.zipIdx = [(full, 0), (other, 1)] := by simp [hgroups]
  obtain ⟨htrim, -⟩ := simple_pass hpool hgroups hfull h hnone hfresh
  rw [hzip]
  intro st₁ hvisit
  obtain rfl : st₁ = st' := Except.ok.inj (hvisit.symm.trans htrim)
  refine ⟨fun hon _ => hdrop full (by simp [hgroups]) hon.1 hon.2.1, fun st₂ _ => ?_⟩
  exact ⟨fun hon _ => hdrop other (by simp [hgroups]) hon.1 hon.2.1, trivial⟩

/-! ### Whole lookups -/

/-- The loop stops at a length that every group takes with the drop verified. -/
theorem lookupLoop_verified (fuel k m : ℕ) (st st' : LookupState n) (hitLength : ℕ)
    (hfuel : m < k ∨ isSimpleHybrid cfg = true ∧ k = 2)
    (hsimple : isSimpleHybrid cfg = true →
      (∀ idx, st.hits idx = none) ∧ ∀ idx, st.eagleVerified idx = false)
    (hverified : PassesVerified cfg pool blockHashes maxCacheHitLength k m st)
    (h : lookupLoop cfg pool blockHashes maxCacheHitLength fuel m st = .ok (hitLength, st'))
    (hpos : 0 < hitLength) :
    ∀ g ∈ cfg.attentionGroups, g.useEagle = true → g.kind ≠ .mamba →
      DropVerified cfg pool blockHashes g maxCacheHitLength hitLength := by
  induction fuel generalizing k m st with
  | zero => cases h
  | succ fuel ih =>
    intro g hg heagle hkind
    obtain ⟨k, rfl⟩ : ∃ j, k = j + 1 := ⟨k - 1, by omega⟩
    have hgroups : ∀ p ∈ cfg.attentionGroups.zipIdx, p.1 ∈ cfg.attentionGroups :=
      fun p hp => mem_of_getElem? (mem_zipIdx_iff_getElem?.mp hp)
    simp only [lookupLoop, bind, Except.bind] at h
    split at h
    · cases h
    · next st₁ hpass =>
      have hle := lookupPass_le hpool _ hgroups hpass
      dsimp only at hle
      split_ifs at h with hstable hone
      · obtain ⟨rfl, -⟩ := Prod.mk.inj (Except.ok.inj h)
        obtain ⟨idx, hidx⟩ := mem_iff_getElem?.mp hg
        exact lookupPass_verified hpool _ hgroups (hverified hpos).1 hpass hstable (g, idx)
          (mem_zipIdx_iff_getElem?.mpr hidx) heagle hkind
      · obtain ⟨rfl, -⟩ := Prod.mk.inj (Except.ok.inj h)
        obtain ⟨full, other, hpair, hfull⟩ := isSimpleHybrid_groups hone
        obtain ⟨hnone, hfresh⟩ := hsimple hone
        obtain ⟨k, rfl⟩ : ∃ j, k = j + 1 := ⟨k - 1, by omega⟩
        have hsecond := (hverified (by omega)).2 st₁ hpass (by omega) hpos
        exact simple_verified hpool hpair hfull hpass hnone hfresh hsecond.1 hpos g hg heagle hkind
      · have hbound : m < k + 1 := hfuel.resolve_right fun h => hone h.1
        exact ih k st₁.currHitLength st₁ (.inl (by omega)) (fun h => absurd h hone)
          ((hverified (by omega)).2 st₁ hpass (by omega)) h g hg heagle hkind

/-- A pass that leaves a candidate with all drops verified takes nothing wrong on trust. -/
theorem passVerified_of_verified (groups : List (SpecGroup × ℕ))
    (hgroups : ∀ p ∈ groups, p.1 ∈ cfg.attentionGroups)
    (h : lookupPass cfg pool blockHashes maxCacheHitLength groups st = .ok st')
    (hstable : st.currHitLength ≤ st'.currHitLength)
    (hdrop : ∀ g ∈ cfg.attentionGroups, g.useEagle = true → g.kind ≠ .mamba →
      DropVerified cfg pool blockHashes g maxCacheHitLength st.currHitLength) :
    PassVerified cfg pool blockHashes maxCacheHitLength groups st := by
  induction groups generalizing st with
  | nil => trivial
  | cons p groups ih =>
    obtain ⟨g, idx⟩ := p
    have hgroups' : ∀ p ∈ groups, p.1 ∈ cfg.attentionGroups :=
      fun p hp => hgroups p (mem_cons_of_mem _ hp)
    intro st₁ hvisit
    obtain ⟨st₂, hvisit₂, hrest⟩ := lookupPass_cons_ok h
    obtain rfl : st₁ = st₂ := Except.ok.inj (hvisit.symm.trans hvisit₂)
    have hfirst := visitGroup_le (hgroups _ mem_cons_self) hpool hvisit
    have hlater := lookupPass_le hpool groups hgroups' hrest
    have hsame : st₁.currHitLength = st.currHitLength := by omega
    refine ⟨fun hon _ => hdrop g (hgroups _ mem_cons_self) hon.1 hon.2.1, ?_⟩
    rw [← hsame] at hstable hdrop
    exact ih hgroups' hrest hstable hdrop

/-- If a pass leaves the candidate as it is and the drops are verified there, the lookup ends
with this pass and has taken nothing wrong on trust in it. -/
theorem passesVerified_last {st' : LookupState n} {hitLength m : ℕ} (fuel k : ℕ)
    (hstable : ∀ st₂ : LookupState n, lookupPass cfg pool blockHashes maxCacheHitLength
      cfg.attentionGroups.zipIdx { st with currHitLength := m } = .ok st₂ → m ≤ st₂.currHitLength)
    (h : lookupLoop cfg pool blockHashes maxCacheHitLength fuel m st = .ok (hitLength, st'))
    (hdrop : ∀ g ∈ cfg.attentionGroups, g.useEagle = true → g.kind ≠ .mamba →
      DropVerified cfg pool blockHashes g maxCacheHitLength hitLength) :
    PassesVerified cfg pool blockHashes maxCacheHitLength k m st := by
  cases fuel with
  | zero => cases h
  | succ fuel =>
    cases k with
    | zero => trivial
    | succ k =>
      simp only [lookupLoop, bind, Except.bind] at h
      split at h
      · cases h
      · next st₂ hpass =>
        have hle := hstable st₂ hpass
        rw [if_pos hle] at h
        obtain ⟨rfl, -⟩ := Prod.mk.inj (Except.ok.inj h)
        refine fun _ => ⟨passVerified_of_verified hpool _ (fun p hp => ?_) hpass hle hdrop,
          fun st₃ hpass₃ hlt => absurd (hstable st₃ hpass₃) (Nat.not_le.mpr hlt)⟩
        exact mem_of_getElem? (mem_zipIdx_iff_getElem?.mp hp)

/-- If the drops are verified at the returned length and the lookup ends in two passes, no
pass has taken a candidate wrongly on trust. -/
theorem trustVerified_of_verified {st' : LookupState n} {hitLength : ℕ}
    (hends : isSimpleHybrid cfg = true ∨ EndsInTwoPasses cfg pool blockHashes maxCacheHitLength)
    (h : lookupLoop cfg pool blockHashes maxCacheHitLength (maxCacheHitLength + 1)
      maxCacheHitLength (startState n maxCacheHitLength) = .ok (hitLength, st'))
    (hdrop : ∀ g ∈ cfg.attentionGroups, g.useEagle = true → g.kind ≠ .mamba →
      DropVerified cfg pool blockHashes g maxCacheHitLength hitLength) :
    TrustVerified cfg pool blockHashes maxCacheHitLength := by
  have hfirst : PassVerified cfg pool blockHashes maxCacheHitLength cfg.attentionGroups.zipIdx
      (startState n maxCacheHitLength) :=
    passVerified_first _ (by simpa using nodup_range') fun _ _ => ⟨rfl, rfl⟩
  unfold TrustVerified
  split_ifs with hsimple
  · refine fun hpos => ⟨hfirst, fun st₁ hpass hlt hpos₁ => ⟨?_, fun _ _ _ => trivial⟩⟩
    obtain ⟨full, other, hpair, hfull⟩ := isSimpleHybrid_groups hsimple
    simp only [lookupLoop, bind, Except.bind, hpass, if_neg (Nat.not_le.mpr hlt),
      if_pos hsimple] at h
    obtain ⟨rfl, -⟩ := Prod.mk.inj (Except.ok.inj h)
    exact simple_passVerified hpool hpair hfull hpass (fun _ => rfl) (fun _ => rfl) hdrop
  · have hstable := hends.resolve_left hsimple
    refine fun hpos => ⟨hfirst, fun st₁ hpass hlt => ?_⟩
    simp only [lookupLoop, bind, Except.bind, hpass, if_neg (Nat.not_le.mpr hlt),
      if_neg hsimple] at h
    exact passesVerified_last hpool _ _ (fun st₂ hpass₂ => hstable st₁ st₂ hpass hpass₂) h hdrop

omit hpool

instance decidableForallOk {ε α : Type*} (x : Except ε α) (P : α → Prop) [DecidablePred P] :
    Decidable (∀ a, x = .ok a → P a) :=
  match x with
  | .ok a => decidable_of_iff (P a) ⟨fun h _ heq => Except.ok.inj heq ▸ h, fun h => h a rfl⟩
  | .error _ => .isTrue nofun

instance decidableExistsOk {ε α β : Type*} (x : Except ε (α × β)) (b : β) [DecidableEq β] :
    Decidable (∃ a, x = .ok (a, b)) :=
  match x with
  | .ok (a, b') => decidable_of_iff (b' = b)
      ⟨fun h => ⟨a, h ▸ rfl⟩, fun ⟨_, h⟩ => (Prod.mk.inj (Except.ok.inj h)).2⟩
  | .error _ => .isFalse nofun

instance (m l : ℕ) : Decidable (DropVerified cfg pool blockHashes g m l) :=
  decidableExistsOk (CacheHit.findLongestCacheHit pool g blockHashes (min (l + eagleMargin cfg g) m)
    true cfg.cacheHitAlignmentTokens) l

instance : Decidable (OnTrust g idx st) :=
  inferInstanceAs (Decidable (_ ∧ _ ∧ (_ ∨ _ ∧ _)))

instance decidablePassVerified : ∀ (groups : List (SpecGroup × ℕ)) (st : LookupState n),
    Decidable (PassVerified cfg pool blockHashes maxCacheHitLength groups st)
  | [], _ => .isTrue trivial
  | (g, idx) :: groups, st =>
    have := decidablePassVerified groups
    decidableForallOk (visitGroup cfg pool blockHashes maxCacheHitLength g idx st) _

instance decidablePassesVerified : ∀ (fuel m : ℕ) (st : LookupState n),
    Decidable (PassesVerified cfg pool blockHashes maxCacheHitLength fuel m st)
  | 0, _, _ => .isTrue trivial
  | fuel + 1, m, st =>
    have := decidablePassesVerified fuel
    have : Decidable (∀ st', lookupPass cfg pool blockHashes maxCacheHitLength
        cfg.attentionGroups.zipIdx { st with currHitLength := m } = .ok st' →
          st'.currHitLength < m → PassesVerified cfg pool blockHashes maxCacheHitLength fuel
            st'.currHitLength st') :=
      decidableForallOk _ _
    inferInstanceAs (Decidable (0 < m → PassVerified cfg pool blockHashes maxCacheHitLength
      cfg.attentionGroups.zipIdx { st with currHitLength := m } ∧ _))

instance : Decidable (TrustVerified cfg pool blockHashes maxCacheHitLength) :=
  decidablePassesVerified _ _ _

theorem twoWindows_ids_disjoint :
    [SpecGroup.single (.slidingWindow 2) 1 0 true, .single (.slidingWindow 3) 1 1 true].Pairwise
      fun a b => ∀ id ∈ a.groupIds, id ∉ b.groupIds := by
  simp [SpecGroup.single]

/-- Two sliding windows with EAGLE, over blocks of one token. -/
def twoWindows : LookupConfig where
  hashBlockSize := 1
  schedulerBlockSize := 1
  enablePartialHashHits := false
  attentionGroups :=
    [.single (.slidingWindow (Nat.succPNat 1)) 1 0 true,
      .single (.slidingWindow (Nat.succPNat 2)) 1 1 true]
  attentionGroups_ne_nil := by simp
  hash_dvd := by decide
  block_dvd := by decide
  fine_supported := by decide
  full_first := by decide
  ids_disjoint := twoWindows_ids_disjoint

def allFive : List BlockHashWithGroupId :=
  [0, 1].flatMap fun id => [0, 1, 2, 3, 4].map (makeBlockHashWithGroupId [·] id)

/-- All but block 2 of five blocks for the first window, blocks 0 to 2 for the second. -/
def withoutBlockTwo : List BlockHashWithGroupId :=
  [0, 1, 3, 4].map (makeBlockHashWithGroupId [·] 0) ++
    [0, 1, 2].map (makeBlockHashWithGroupId [·] 1)

end Vllm.EagleRuns
