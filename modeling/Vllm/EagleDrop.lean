import Vllm.HybridLookup

/-!
The lookups of groups that use EAGLE. One unit is matched past the candidate and
dropped again, a hash unit for full attention that may end inside a block and a
block otherwise. A hit has its drop verified if the lookup that is bounded by the
hit and this unit returns the hit.
-/
namespace Vllm.EagleDrop

open BlockHashing BlockHashMap CacheManagers CacheHit LongestHit HybridLookup
open Pool hiding resolveBlockHashes

variable {n : ℕ} {maxLength a l : ℕ} {rows : List (Row n)}

/-! ### What a dropping lookup finds -/

/-- The blocks left of a run that ends before index `e`, with `u` blocks to an
alignment unit. -/
def droppedCount (u need e : ℕ) : ℕ := if need ≤ e ∨ u = 1 then e - 1 else e - 1 - u

theorem slidingCount_drop {u b : ℕ} (hb : 0 < b) (hu : 0 < u) {need e : ℕ} (hneed : 0 < need)
    (he : u ∣ e - 1) :
    slidingCount b (u * b) true e (decide (max need 1 ≤ e)) = droppedCount u need e := by
  rw [Nat.max_eq_left hneed]
  unfold droppedCount
  by_cases hfound : need ≤ e
  · rw [if_pos (.inl hfound), decide_eq_true hfound,
      slidingCount_drop_found hb (Nat.lt_of_lt_of_le hneed hfound) he]
  · rw [decide_eq_false hfound, slidingCount_drop_short hb hu he]
    simp only [hfound, false_or]

variable {pool : BlockPool n} {blockHashes : List BlockHash}

/-- The sliding-window lookup with a dropped block ends one block past an aligned window. -/
theorem findSlidingWindow_drop {scale u h : ℕ} (window : ℕ) (groupIds : List GroupId) (hh : 0 < h)
    (hs : 0 < scale) (hu : 0 < u) (hpool : pool.hashBlockSize = h)
    (hcovered : maxLength / h / scale ≤ blockHashes.length / scale) :
    ∃ e ≤ maxLength / h / scale,
      (0 < e → u ∣ e - 1 ∧ WindowCached (blockProbe (probeAt pool groupIds blockHashes) scale)
        (contiguousBlocksForHit window (scale * h) true) e) ∧
      (∀ e', 0 < e' → e' ≤ maxLength / h / scale → u ∣ e' - 1 →
        WindowCached (blockProbe (probeAt pool groupIds blockHashes) scale)
          (contiguousBlocksForHit window (scale * h) true) e' → e' ≤ e) ∧
      ∃ rows, findSlidingWindow pool window (scale * h) groupIds blockHashes maxLength true
          (u * scale * h) =
        .ok (rows, droppedCount u (contiguousBlocksForHit window (scale * h) true) e *
          scale * h) := by
  subst hpool
  set h := pool.hashBlockSize
  have hb : 0 < scale * h := Nat.mul_pos hs hh
  have hbound := div_block maxLength h scale
  obtain ⟨hashes, hresolve, hprobe, hlength⟩ :=
    resolveBlockHashes_block hh hs pool groupIds blockHashes
  have hmod : u * scale * h % (scale * h) = 0 := by simp [Nat.mul_assoc]
  obtain ⟨e, hle, hwindow, hgreatest, hfind⟩ :=
    findSlidingWindow_spec window groupIds true hmod hresolve (by rwa [hbound, hlength])
  rw [hprobe, Nat.mul_assoc] at hwindow hgreatest hfind
  simp only [endAligned_iff hb, if_true] at hwindow hgreatest
  rw [hbound] at hle hgreatest
  have hue : u ∣ e - 1 := by
    rcases Nat.eq_zero_or_pos e with rfl | he
    · simp
    · exact (hwindow he).1
  have hneed : 0 < contiguousBlocksForHit window (scale * h) true := by
    simp [contiguousBlocksForHit]
  rw [slidingCount_drop hb hu hneed hue] at hfind
  simp only [Nat.mul_assoc]
  exact ⟨e, hle, hwindow, hgreatest, _, hfind⟩

/-- The sliding-window lookup fails if the hashes end before its bound. -/
theorem findSlidingWindow_covered {scale h window align : ℕ} {groupIds : List GroupId}
    {drop : Bool} (hh : 0 < h) (hs : 0 < scale) (hpool : pool.hashBlockSize = h)
    {found : List (Row n) × ℕ}
    (hfind : findSlidingWindow pool window (scale * h) groupIds blockHashes maxLength drop align =
      .ok found) : maxLength / h / scale ≤ blockHashes.length / scale := by
  subst hpool
  obtain ⟨hashes, hresolve, -, hlength⟩ :=
    resolveBlockHashes_block hh hs pool groupIds blockHashes
  rw [← hlength, Nat.div_div_eq_div_mul, Nat.mul_comm pool.hashBlockSize]
  by_contra hshort
  simp only [findSlidingWindow, hresolve, bind, Except.bind, if_pos (not_le.mp hshort)] at hfind
  split_ifs at hfind

variable (cfg : LookupConfig) (pool : BlockPool n) (blockHashes : List BlockHash) (g : SpecGroup)

/-- The lookup bounded by the hit and the unit behind it returns the hit. -/
def DropVerified (maxCacheHitLength : ℕ) (hitLength : ℕ) : Prop :=
  ∃ rows, CacheHit.findLongestCacheHit pool g blockHashes
    (min (hitLength + eagleMargin cfg g) maxCacheHitLength) true cfg.cacheHitAlignmentTokens =
      .ok (rows, hitLength)

variable {cfg pool blockHashes} {g : SpecGroup} (hg : g ∈ cfg.attentionGroups)
  (hpool : pool.hashBlockSize = cfg.hashBlockSize)

include hg in
theorem eagleMargin_eq :
    eagleMargin cfg g = min cfg.alignUnits (cfg.scale g) * cfg.hashBlockSize := by
  have hs := cfg.scale_pos hg
  have hsize := cfg.blockSize_eq hg
  unfold eagleMargin
  split_ifs with hfine
  · rw [cfg.alignUnits_eq_one hfine.1, Nat.min_eq_left hs, Nat.one_mul]
  · have hle : cfg.scale g ≤ cfg.alignUnits := by
      refine Nat.le_of_dvd cfg.alignUnits_pos ?_
      cases hkind : g.kind.supportsFineGrainedHashLookup with
      | false => exact cfg.scale_dvd_of_window hg hkind
      | true => exact cfg.scale_dvd_of_whole hg fun h => hfine ⟨h.1, hkind, h.2⟩
    rw [Nat.min_eq_right hle, ← hsize]

/-- What is left of a hit of `a` units, and the dropped units, are within the hit. -/
theorem fullHit_drop_le {align t : ℕ} (hpos : 0 < fullHit align t true a) :
    fullHit align t true a + min align t ≤ a := by
  unfold fullHit at *
  split_ifs at hpos ⊢ with ha
  · have hle := Nat.div_mul_le_self (a - min align t) align
    omega
  · simp only [true_and, not_lt, Nat.le_zero] at ha
    subst ha
    simp at hpos

include hg hpool in
/-- Full attention leaves at least the margin of what it was bounded by. -/
theorem findFull_drop_le (hkind : g.kind = .fullAttention)
    (hfind : CacheHit.findLongestCacheHit pool g blockHashes maxLength true
      cfg.cacheHitAlignmentTokens = .ok (rows, l)) (hpos : 0 < l) :
    l + eagleMargin cfg g ≤ maxLength := by
  have hh := cfg.hashBlockSize.pos
  obtain ⟨a, ⟨⟨hbound, -, -⟩, -⟩, hspec⟩ := findFullAttention_spec g.groupIds blockHashes
    maxLength hh (cfg.scale_pos hg) hpool (cfg.alignedTo hg) true
  simp only [CacheHit.findLongestCacheHit, hkind, cfg.blockSize_eq hg, cfg.alignment_eq] at hfind
  rw [hspec] at hfind
  obtain ⟨-, rfl⟩ := Prod.mk.inj (Except.ok.inj hfind)
  have hle := fullHit_drop_le (Nat.pos_of_mul_pos_right hpos)
  rw [eagleMargin_eq hg, ← Nat.add_mul]
  exact (Nat.mul_le_mul_right _ (hle.trans hbound)).trans (Nat.div_mul_le_self _ _)

section
variable {window : ℕ+} (hkind : g.kind = .slidingWindow window)
include hg hkind

theorem eagleMargin_window : eagleMargin cfg g = g.blockSize := by
  have hdvd := cfg.scale_dvd_of_window hg (by rw [hkind]; rfl)
  rw [eagleMargin_eq hg, Nat.min_eq_right (Nat.le_of_dvd cfg.alignUnits_pos hdvd),
    ← cfg.blockSize_eq hg]

theorem alignUnits_eq_mul : ∃ u, 0 < u ∧ cfg.alignUnits = u * cfg.scale g := by
  obtain ⟨u, hu⟩ :=
    dvd_iff_exists_eq_mul_left.mp (cfg.scale_dvd_of_window hg (by rw [hkind]; rfl))
  have hpos := cfg.alignUnits_pos
  refine ⟨u, Nat.pos_of_ne_zero ?_, hu⟩
  rintro rfl
  omega

include hpool

/-- A dropping lookup of a sliding window takes blocks off a run that ends
before block `e`. -/
theorem findWindow_drop (hfind : CacheHit.findLongestCacheHit pool g blockHashes maxLength true
      cfg.cacheHitAlignmentTokens = .ok (rows, l)) :
    ∃ u e, 0 < u ∧ cfg.alignUnits = u * cfg.scale g ∧
      e * g.blockSize ≤ maxLength ∧ e ≤ blockHashes.length / cfg.scale g ∧
      (0 < e → u ∣ e - 1 ∧ WindowCached (blockProbe (unitOf pool blockHashes g) (cfg.scale g))
        (contiguousBlocksForHit window g.blockSize true) e) ∧
      l = droppedCount u (contiguousBlocksForHit window g.blockSize true) e * g.blockSize := by
  have hh := cfg.hashBlockSize.pos
  have hs := cfg.scale_pos hg
  have hsize := cfg.blockSize_eq hg
  obtain ⟨u, hu, hal⟩ := alignUnits_eq_mul hg hkind
  simp only [CacheHit.findLongestCacheHit, hkind, hsize, cfg.alignment_eq, hal] at hfind
  have hcovered := findSlidingWindow_covered hh hs hpool hfind
  obtain ⟨e, hle, hwindow, -, rows', hspec⟩ :=
    findSlidingWindow_drop window g.groupIds hh hs hu hpool hcovered
  rw [hspec] at hfind
  obtain ⟨-, rfl⟩ := Prod.mk.inj (Except.ok.inj hfind)
  refine ⟨u, e, hu, hal, ?_, hle.trans hcovered, ?_, ?_⟩
  · rw [hsize, ← Nat.mul_assoc]
    exact (Nat.le_div_iff_mul_le hh).mp ((Nat.le_div_iff_mul_le hs).mp hle)
  · rwa [hsize]
  · rw [hsize, Nat.mul_assoc]

/-- So does a sliding window, whose unit is a block. -/
theorem findWindow_drop_le (hfind : CacheHit.findLongestCacheHit pool g blockHashes maxLength true
      cfg.cacheHitAlignmentTokens = .ok (rows, l)) (hpos : 0 < l) :
    l + eagleMargin cfg g ≤ maxLength := by
  obtain ⟨u, e, -, -, hle, -, -, rfl⟩ := findWindow_drop hg hpool hkind hfind
  rw [eagleMargin_window hg hkind, ← Nat.add_one_mul]
  refine (Nat.mul_le_mul_right _ ?_).trans hle
  have hcount := Nat.pos_of_mul_pos_right hpos
  unfold droppedCount at hcount ⊢
  split_ifs at hcount ⊢ <;> omega

/-- A run that fills the window loses its last block only, and is found again
from its own end. A shorter run starts with the first block, so that what is left
of it is a hit without a drop. -/
theorem findWindow_verified_or_accepted {maxCacheHitLength : ℕ}
    (hbound : maxLength ≤ maxCacheHitLength)
    (hfind : CacheHit.findLongestCacheHit pool g blockHashes maxLength true
      cfg.cacheHitAlignmentTokens = .ok (rows, l)) (hpos : 0 < l) :
    DropVerified cfg pool blockHashes g maxCacheHitLength l ∨
      Accepts cfg pool blockHashes g l := by
  have hh := cfg.hashBlockSize.pos
  have hs := cfg.scale_pos hg
  have hsize := cfg.blockSize_eq hg
  obtain ⟨u, e, hu, hal, hle, hcovered, hwindow, rfl⟩ := findWindow_drop hg hpool hkind hfind
  set need := contiguousBlocksForHit window g.blockSize true with hneed
  have hcount := Nat.pos_of_mul_pos_right hpos
  by_cases hfull : need ≤ e ∨ u = 1
  · left
    rw [droppedCount, if_pos hfull] at hcount ⊢
    have hlast : (e - 1) * g.blockSize + eagleMargin cfg g = e * g.blockSize := by
      rw [eagleMargin_window hg hkind, ← Nat.add_one_mul, Nat.sub_add_cancel (by omega)]
    have hunits : e * (cfg.scale g * cfg.hashBlockSize) / cfg.hashBlockSize / cfg.scale g = e := by
      rw [← Nat.mul_assoc, Nat.mul_div_cancel _ hh, Nat.mul_div_cancel _ hs]
    have hreach : e * (cfg.scale g * cfg.hashBlockSize) / cfg.hashBlockSize / cfg.scale g ≤
        blockHashes.length / cfg.scale g := by rwa [hunits]
    obtain ⟨e', hle', -, hgreatest, rows', hspec⟩ :=
      findSlidingWindow_drop window g.groupIds hh hs hu hpool hreach
    rw [hunits] at hle' hgreatest
    obtain ⟨hue, hcached⟩ := hwindow (by omega)
    rw [hneed, hsize] at hcached hfull
    obtain rfl := le_antisymm hle' (hgreatest e (by omega) le_rfl hue hcached)
    rw [droppedCount, if_pos hfull] at hspec
    refine ⟨rows', ?_⟩
    rw [hlast, Nat.min_eq_left (hle.trans hbound)]
    simpa only [CacheHit.findLongestCacheHit, hkind, hsize, cfg.alignment_eq, hal,
      Nat.mul_assoc] using hspec
  · right
    rw [droppedCount, if_neg hfull] at hcount ⊢
    obtain ⟨hue, hcached⟩ := hwindow (by omega)
    refine ⟨(e - 1 - u) * cfg.scale g, by rw [hsize, Nat.mul_assoc], ?_, ?_⟩
    · exact hal ▸ Nat.mul_dvd_mul_right (Nat.dvd_sub hue dvd_rfl) _
    · simp only [hkind, Nat.mul_div_cancel _ hs]
      exact fun j hj _ => hcached j (by omega) (by omega)
end

theorem find_mamba (hkind : g.kind = .mamba) (maxLength alignmentTokens : ℕ) (drop : Bool) :
    CacheHit.findLongestCacheHit pool g blockHashes maxLength drop alignmentTokens =
      CacheHit.findLongestCacheHit pool g blockHashes maxLength false alignmentTokens := by
  simp only [CacheHit.findLongestCacheHit, hkind]

include hg hpool in
/-- A lookup that drops a unit leaves room for it below its bound. -/
theorem find_drop_le (hkind : g.kind ≠ .mamba)
    (hfind : CacheHit.findLongestCacheHit pool g blockHashes maxLength true
      cfg.cacheHitAlignmentTokens = .ok (rows, l)) (hpos : 0 < l) :
    l + eagleMargin cfg g ≤ maxLength := by
  cases hk : g.kind with
  | fullAttention => exact findFull_drop_le hg hpool hk hfind hpos
  | slidingWindow window => exact findWindow_drop_le hg hpool hk hfind hpos
  | mamba => exact absurd hk hkind

include hg hpool in
theorem find_covers {drop : Bool} {found : List (Row n) × ℕ}
    (hfind : CacheHit.findLongestCacheHit pool g blockHashes maxLength drop
      cfg.cacheHitAlignmentTokens = .ok found) : Covers cfg g blockHashes maxLength := by
  have hh := cfg.hashBlockSize.pos
  have hs := cfg.scale_pos hg
  intro hnotfull hcoarse
  rw [cfg.blockSize_eq hg] at hcoarse
  cases hkind : g.kind with
  | fullAttention => exact absurd hkind hnotfull
  | slidingWindow window =>
    simp only [CacheHit.findLongestCacheHit, hkind, cfg.blockSize_eq hg] at hfind
    exact findSlidingWindow_covered hh hs hpool hfind
  | mamba =>
    simp only [CacheHit.findLongestCacheHit, hkind, cfg.blockSize_eq hg] at hfind
    obtain ⟨hashes, hresolve, -, hlength⟩ :=
      resolveBlockHashes_block hh hs pool g.groupIds blockHashes
    rw [← hlength, Nat.div_div_eq_div_mul, Nat.mul_comm (cfg.hashBlockSize : ℕ)]
    by_contra hshort
    simp [findMamba, hcoarse, hpool, hresolve, bind, Except.bind, not_le.mp hshort] at hfind

include hg hpool in
theorem find_keep_le (hfind : CacheHit.findLongestCacheHit pool g blockHashes maxLength false
      cfg.cacheHitAlignmentTokens = .ok (rows, l)) : l ≤ maxLength := by
  obtain ⟨a, ⟨⟨hbound, -⟩, -⟩, hspec⟩ := find_units hg hpool (find_covers hg hpool hfind)
  rw [hspec] at hfind
  obtain ⟨-, rfl⟩ := Prod.mk.inj (Except.ok.inj hfind)
  exact (Nat.le_div_iff_mul_le cfg.hashBlockSize.pos).mp hbound

include hg hpool in
/-- An accepted length is found again from its own bound. -/
theorem find_accepted (hcovers : Covers cfg g blockHashes l)
    (haccepts : Accepts cfg pool blockHashes g l) :
    ∃ rows, CacheHit.findLongestCacheHit pool g blockHashes l false cfg.cacheHitAlignmentTokens =
      .ok (rows, l) := by
  have hh := cfg.hashBlockSize.pos
  obtain ⟨b, ⟨⟨hbound, -⟩, hgreatest⟩, hspec⟩ := find_units hg hpool hcovers
  obtain ⟨a, rfl, ha⟩ := haccepts
  rw [Nat.mul_div_cancel _ hh] at hbound hgreatest
  obtain rfl := le_antisymm hbound (hgreatest ⟨le_rfl, ha⟩)
  exact ⟨_, hspec⟩

end Vllm.EagleDrop
