import Vllm.PolicyLaws
import Vllm.PolicyRuns

/-!
When ARC eviction finds its victims. The choice compares a simulated size of T1
with the target: while T1 is below it only T2 is searched, and there is no way
back to T1. So eviction may give up although enough idle blocks are there. The
exact condition is stated on the state before the call, for every state that
calls on the manager lead to; with it go the invariants of the four lists.
-/
namespace Vllm.Offload

open Outcome List

theorem FloatRounding.fl_nonneg (F : FloatRounding) {x : ℚ} (h : 0 ≤ x) : 0 ≤ F.fl x := by
  have hzero : F.fl ((0 : ℤ) : ℚ) = ((0 : ℤ) : ℚ) := F.fl_int 0 (by norm_num)
  rw [Int.cast_zero] at hzero
  rw [← hzero]
  exact F.mono h

theorem FloatRounding.fl_le_nat (F : FloatRounding) {x : ℚ} {n : ℕ} (hn : n ≤ 2 ^ 53) (h : x ≤ n) :
    F.fl x ≤ n := by
  have hint : F.fl ((n : ℤ) : ℚ) = ((n : ℤ) : ℚ) := by
    apply F.fl_int
    exact_mod_cast hn
  rw [Int.cast_natCast] at hint
  rw [← hint]
  exact F.mono h

namespace ARCCachePolicy

variable {κ : Type} [DecidableEq κ] {s : ARCCachePolicy κ}
  {shielded : List κ} {it rest : List (κ × BlockStatus)}

theorem countP_of_nextCandidate_some {e : κ × BlockStatus}
    (h : nextCandidate shielded it = (some e, rest)) :
    it.countP (Idle shielded) = rest.countP (Idle shielded) + 1 := by
  obtain ⟨skipped, rfl, hidle, hskip⟩ := nextCandidate_eq_some h
  have hnone : skipped.countP (Idle shielded) = 0 :=
    countP_eq_zero.mpr fun f hf => by simpa using hskip f hf
  rw [countP_append, hnone, countP_cons_of_pos (by simpa using hidle), Nat.zero_add]

theorem countP_of_nextCandidate_none (h : nextCandidate shielded it = (none, rest)) :
    it.countP (Idle shielded) = 0 :=
  countP_eq_zero.mpr fun f hf => by simpa using (nextCandidate_eq_none h).2 f hf

section
variable {target virtualT1Size : ℤ} {shielded : List κ} {n : ℕ}
  {it1 it2 left1 left2 : List (κ × BlockStatus)} {e : κ × BlockStatus}

/-- T1 gives at most as many victims as it exceeds the target by, one more included; T2
gives all it has. -/
theorem candidates_eq_none_iff (target : ℤ) (shielded : List κ) (n : ℕ) (virtualT1Size : ℤ)
    (it1 it2 : List (κ × BlockStatus)) :
    candidates target shielded n virtualT1Size it1 it2 = none ↔
      min (it1.countP (Idle shielded)) (virtualT1Size + 1 - target).toNat +
        it2.countP (Idle shielded) < n := by
  induction n generalizing virtualT1Size it1 it2 with
  | zero => simp [candidates]
  | succ n ih =>
    obtain ⟨entry, left1, h1⟩ : ∃ entry left1,
        (if target ≤ virtualT1Size then nextCandidate shielded it1 else (none, it1)) =
          (entry, left1) := ⟨_, _, rfl⟩
    cases entry with
    | some e =>
      split_ifs at h1 with hv
      · rw [candidates, if_pos hv, h1, countP_of_nextCandidate_some h1]
        dsimp only
        rw [Option.map_eq_none_iff, ih]
        omega
      · cases h1
    | none =>
      -- T1 is passed over: at its target, or without an idle block
      have hpassed : min (left1.countP (Idle shielded)) (virtualT1Size + 1 - target).toNat = 0 ∧
          min (it1.countP (Idle shielded)) (virtualT1Size + 1 - target).toNat = 0 := by
        split_ifs at h1 with hv
        · rw [countP_of_nextCandidate_none h1, (nextCandidate_eq_none h1).1]
          simp
        · have hzero : (virtualT1Size + 1 - target).toNat = 0 := by omega
          rw [hzero]
          simp
      obtain ⟨entry, left2, h2⟩ : ∃ entry left2,
          nextCandidate shielded it2 = (entry, left2) := ⟨_, _, rfl⟩
      rw [candidates, h1]
      simp only [h2]
      cases entry with
      | none =>
        rw [countP_of_nextCandidate_none h2, hpassed.2]
        simp
      | some e =>
        rw [countP_of_nextCandidate_some h2, Option.map_eq_none_iff, ih, hpassed.1, hpassed.2]
        omega
end

/-- The idle blocks of T1 and T2 that are not shielded. -/
def idle1 (s : ARCCachePolicy κ) (shielded : List κ) : ℕ := s.t1.entries.countP (Idle shielded)

def idle2 (s : ARCCachePolicy κ) (shielded : List κ) : ℕ := s.t2.entries.countP (Idle shielded)

/-- By how much T1 exceeds the target, one more included. -/
def surplus (s : ARCCachePolicy κ) : ℕ :=
  ((s.t1.entries.length : ℤ) + 1 - truncate s.targetT1Size).toNat

/-- Eviction gives up exactly when fewer than `n` blocks are idle and not shielded, and then
changes nothing; otherwise it takes out `n` of them. -/
def EvictsExactly (s : ARCCachePolicy κ) (n : ℕ) (shielded : List κ) : Prop :=
  ∃ r t, (evict n shielded).run s = .ok r t ∧
    (r = none ↔ s.idle1 shielded + s.idle2 shielded < n) ∧ (r = none → t = s) ∧
    ∀ victims, r = some victims → victims.length = n ∧ (∀ v ∈ victims, Idle shielded v) ∧
      s.blocks.Perm (victims ++ t.blocks)

/-- ARC refuses by what its simulated loop can take: T1 only down to the target, T2 without limit.
-/
theorem evict_none_iff (n : ℕ) (shielded : List κ) : Ensures (evict n shielded) s
      (fun r _ => r = none ↔ min (s.idle1 shielded) s.surplus + s.idle2 shielded < n)
      fun _ _ => False := by
  unfold evict
  change Ensures (if n = 0 then _ else _) s _ _
  rw [ensures_ite]
  refine ⟨?_, ?_⟩
  · intro hn
    simp [hn]
  · intro _
    have hnone : candidates (truncate s.targetT1Size) shielded n s.t1.entries.length
        s.t1.entries s.t2.entries = none ↔
          min (s.idle1 shielded) s.surplus + s.idle2 shielded < n :=
      candidates_eq_none_iff _ shielded n _ _ _
    split
    next hempty =>
      rw [ensures_pure, ← hnone, hempty]
      simp
    next chosen hchosen =>
      rw [ensures_bind, ensures_set, ensures_pure, ← hnone, hchosen]
      simp

/-- The condition under which eviction is exact: too few idle blocks in all, or few enough
victims that T2 and the surplus of T1 can give them. -/
theorem evictsExactly_iff (hs : s.Separated) (n : ℕ) (shielded : List κ) :
    s.EvictsExactly n shielded ↔
      s.idle1 shielded + s.idle2 shielded < n ∨ n ≤ s.idle2 shielded + s.surplus := by
  obtain ⟨r, t, hrun, ⟨hspec, hnone⟩⟩ := ((evict_spec n shielded hs).and
    ((evict_none_iff (s := s) n shielded).mono (fun _ _ h => h) fun _ _ h => h)).mono
      (fun _ _ h => h) (fun _ _ h => h.1) |>.exists_ok
  constructor
  · intro h
    obtain ⟨r', t', hrun', hiff, -⟩ := h
    obtain ⟨rfl, rfl⟩ : r = r' ∧ t = t' := by
      rw [hrun] at hrun'
      cases hrun'
      exact ⟨rfl, rfl⟩
    rw [hnone] at hiff
    omega
  · intro h
    refine ⟨r, t, hrun, ?_, ?_, ?_⟩
    · rw [hnone]
      omega
    · rintro rfl
      exact hspec.2
    · rintro victims rfl
      exact ⟨hspec.2.1, hspec.2.2.2, hspec.2.2.1⟩

/-! ### The invariants of the lists -/

/-- The four lists are disjoint, the ghost lists hold at most the capacity, and the target
lies between 0 and the capacity. -/
structure Bounded (capacity : ℕ) (s : ARCCachePolicy κ) : Prop where
  separated : s.Separated
  capacity_eq : s.cacheCapacity = capacity
  b1_le : s.b1.entries.length ≤ capacity
  b2_le : s.b2.entries.length ≤ capacity
  target_nonneg : 0 ≤ s.targetT1Size
  target_le : s.targetT1Size ≤ capacity

omit [DecidableEq κ] in
theorem one_le_delta (F : FloatRounding) (other own : OrderedDict κ PUnit) :
    1 ≤ delta F other own :=
  le_max_left _ _

variable {capacity : ℕ} (F : FloatRounding) (n : ℕ) (shielded : List κ)

/-- A ghost hit moves the target by a step that is clamped to the range from 0 to the capacity. -/
theorem Bounded.touchKey (hcapacity : capacity ≤ 2 ^ 53) (k : κ) (h : s.Bounded capacity) :
    (s.touchKey F k).Bounded capacity := by
  have hsep := (touchKey_spec F k h.separated).1
  unfold ARCCachePolicy.touchKey at hsep ⊢
  split at hsep
  next b hb =>
    split_ifs at hsep ⊢
    · exact ⟨hsep, h.capacity_eq, h.b1_le, h.b2_le, h.target_nonneg, h.target_le⟩
    · exact ⟨hsep, h.capacity_eq, h.b1_le, h.b2_le, h.target_nonneg, h.target_le⟩
  next =>
    split_ifs at hsep ⊢
    · exact ⟨hsep, h.capacity_eq, h.b1_le, h.b2_le, h.target_nonneg, h.target_le⟩
    · have hdelta := one_le_delta F s.b2 s.b1
      refine ⟨hsep, h.capacity_eq, ?_, h.b2_le, ?_, ?_⟩
      · exact OrderedDict.entries_moveToEnd_perm.length_eq.trans_le h.b1_le
      · apply le_min
        · exact FloatRounding.fl_nonneg F (by linarith [h.target_nonneg])
        · exact Nat.cast_nonneg _
      · exact (min_le_right _ _).trans (by rw [h.capacity_eq])
    · have hdelta := one_le_delta F s.b1 s.b2
      refine ⟨hsep, h.capacity_eq, h.b1_le, ?_, le_max_right _ _, ?_⟩
      · exact OrderedDict.entries_moveToEnd_perm.length_eq.trans_le h.b2_le
      · apply max_le
        · exact FloatRounding.fl_le_nat F hcapacity (by linarith [h.target_le])
        · exact Nat.cast_nonneg _
    · exact h

theorem Bounded.touch (hcapacity : capacity ≤ 2 ^ 53) (ks : List κ) (h : s.Bounded capacity) :
    (s.touch F ks).Bounded capacity := by
  unfold ARCCachePolicy.touch
  generalize ks.reverse = ls
  induction ls generalizing s with
  | nil => exact h
  | cons k ls ih => exact ih (h.touchKey F hcapacity k)

theorem Bounded.insertAll (entries : List (κ × BlockStatus)) (h : s.Bounded capacity)
    (hnew : ∀ e ∈ entries, e.1 ∉ s.t2.keys) :
    (entries.foldl (fun p e => p.insert e.1 e.2) s).Bounded capacity := by
  induction entries generalizing s with
  | nil => exact h
  | cons e entries ih =>
    apply ih
    · have hfilter : ∀ d : OrderedDict κ PUnit,
          (d.erase e.1).entries.length ≤ d.entries.length := fun d => length_filter_le _ _
      exact ⟨separated_insert e.2 h.separated (hnew e mem_cons_self), h.capacity_eq,
        (hfilter _).trans h.b1_le, (hfilter _).trans h.b2_le, h.target_nonneg, h.target_le⟩
    · exact fun f hf => hnew f (mem_cons_of_mem e hf)

theorem foldl_evictOne_frame (chosen : List ((κ × BlockStatus) × Bool)) :
    (chosen.foldl evictOne s).cacheCapacity = s.cacheCapacity ∧
      (chosen.foldl evictOne s).targetT1Size = s.targetT1Size := by
  induction chosen generalizing s with
  | nil => exact ⟨rfl, rfl⟩
  | cons c chosen ih =>
    have hone : (s.evictOne c).cacheCapacity = s.cacheCapacity ∧
        (s.evictOne c).targetT1Size = s.targetT1Size := by
      unfold evictOne
      split_ifs <;> exact ⟨rfl, rfl⟩
    exact ⟨ih.1.trans hone.1, ih.2.trans hone.2⟩

/-- After an eviction the ghost lists are trimmed to the capacity. -/
theorem evict_frame (h : s.Bounded capacity) : Ensures (evict n shielded) s
      (fun _ t => t.cacheCapacity = capacity ∧ t.targetT1Size = s.targetT1Size ∧
        t.b1.entries.length ≤ capacity ∧ t.b2.entries.length ≤ capacity)
      fun _ _ => False := by
  have hsame : s.cacheCapacity = capacity ∧ s.targetT1Size = s.targetT1Size ∧
      s.b1.entries.length ≤ capacity ∧ s.b2.entries.length ≤ capacity :=
    ⟨h.capacity_eq, rfl, h.b1_le, h.b2_le⟩
  unfold ARCCachePolicy.evict
  change Ensures (if n = 0 then _ else _) s _ _
  rw [ensures_ite]
  refine ⟨fun _ => hsame, fun _ => ?_⟩
  split
  next => exact hsame
  next chosen _ =>
    obtain ⟨hcap, htarget⟩ := foldl_evictOne_frame (s := s) chosen
    rw [h.capacity_eq] at hcap
    refine ⟨hcap, htarget, ?_, ?_⟩
    · simp only [trimGhosts, OrderedDict.dropFirst, length_drop, hcap]
      omega
    · simp only [trimGhosts, OrderedDict.dropFirst, length_drop, hcap]
      omega

/-- An eviction keeps the bounds, and brings no key into the cache. -/
theorem Bounded.evict (h : s.Bounded capacity) : Ensures (evict n shielded) s
      (fun _ t => t.Bounded capacity ∧ ∀ k, s.get k = none → t.get k = none)
      (fun _ t => t.Bounded capacity) := by
  refine ((evict_spec n shielded h.separated).and (evict_frame n shielded h)).mono ?_
    (fun _ _ hf => hf.1.elim)
  intro r t ht
  obtain ⟨⟨hsep, hr⟩, hcap, htarget, hb1, hb2⟩ := ht
  refine ⟨⟨hsep, hcap, hb1, hb2, htarget ▸ h.target_nonneg, htarget ▸ h.target_le⟩, ?_⟩
  intro k hk
  -- what is left was there before
  have hsub : ∀ e ∈ t.blocks, e ∈ s.blocks := by
    cases r with
    | none =>
      obtain rfl : t = s := hr
      exact fun _ he => he
    | some victims => exact fun e he => hr.2.1.mem_iff.mpr (mem_append_right _ he)
  cases hget : t.get k with
  | none => rfl
  | some b =>
    have hmem := hsub (k, b) ((get_eq_some_iff hsep).mp hget)
    rw [(get_eq_some_iff h.separated).mpr hmem] at hk
    cases hk

/-- The bounds are kept by every operation of the policy. -/
theorem closed_bounded (hcapacity : capacity ≤ 2 ^ 53) :
    (arc F : CachePolicy κ _).Closed (Bounded capacity) where
  setRefCnt k r s h := ⟨separated_setRefCnt F k r h.separated, h.capacity_eq, h.b1_le, h.b2_le,
    h.target_nonneg, h.target_le⟩
  insertAll entries s h hnew :=
    h.insertAll entries fun e he => (get_eq_none_iff.mp (hnew e he)).2
  remove k s h := by
    refine ⟨separated_remove k h.separated, ?_, ?_, ?_, ?_, ?_⟩ <;> unfold remove <;> split_ifs
    all_goals first
      | exact h.capacity_eq
      | exact h.b1_le
      | exact h.b2_le
      | exact h.target_nonneg
      | exact h.target_le
  touch ks s h := h.touch F hcapacity ks
  evict n shielded s h := h.evict n shielded
  clear s h := ⟨((arcLawful F).clear s).1, h.capacity_eq, Nat.zero_le _, Nat.zero_le _, le_refl _,
    Nat.cast_nonneg _⟩
  markEvictable _ _ h := h
  markNonEvictable _ _ h := h

theorem bounded_init (capacity : ℕ) : ((arc F : CachePolicy κ _).init capacity).Bounded capacity :=
  ⟨((arcLawful F).init capacity).1, rfl, Nat.zero_le _, Nat.zero_le _, le_refl _, Nat.cast_nonneg _⟩

/-- In every state that calls on the manager lead to, over at most 2⁵³ blocks, the lists
are within their bounds, and eviction is exact under a condition on the lists. -/
theorem arc_evicts_exactly_iff (F : FloatRounding) (numBlocks : ℕ) (hsmall : numBlocks ≤ 2 ^ 53)
    (enableEvents : Bool) (storeThreshold maxTrackerSize : ℤ)
    (m : CPUOffloadingManager κ (ARCCachePolicy κ))
    (hm : m.Reachable (arc F) numBlocks enableEvents storeThreshold maxTrackerSize) :
    m.policy.Bounded numBlocks ∧ ∀ n shielded, (m.policy.EvictsExactly n shielded ↔
        m.policy.idle1 shielded + m.policy.idle2 shielded < n ∨
          n ≤ m.policy.idle2 shielded + m.policy.surplus) := by
  have hbounded : m.policy.Bounded numBlocks :=
    CPUOffloadingManager.Reachable.policy (closed_bounded F hsmall) (bounded_init F numBlocks) hm
  exact ⟨hbounded, fun n shielded => evictsExactly_iff hbounded.separated n shielded⟩

/-- Two blocks. Key 1 was evicted and asked for twice, so the target is 2; key 3 is idle in
T1, key 2 is being loaded from T2. -/
def pinnedFrequent : CPUOffloadingManager ℕ (ARCCachePolicy ℕ) :=
  (CPUOffloadingManager.init (arc exactRounding) 2 false 0 64000).afterCalls (arc exactRounding)
    [.prepareStore [1, 2], .completeStore [1, 2] true, .prepareStore [3], .completeStore [3] true,
      .touch [1], .touch [1], .touch [2], .prepareLoad [2]]

theorem reachable_pinnedFrequent : pinnedFrequent.Reachable (arc exactRounding) 2 false 0 64000 :=
  CPUOffloadingManager.Reachable.init.afterCalls _

theorem arc_evicts_exactly_pinnedFrequent :
    2 ≤ 2 ^ 53 ∧ pinnedFrequent.policy.Bounded 2 ∧ pinnedFrequent.policy.EvictsExactly 2 [] := by
  have hsmall : 2 ≤ 2 ^ 53 := by norm_num
  obtain ⟨hbounded, hiff⟩ := arc_evicts_exactly_iff exactRounding 2 hsmall false 0 64000 _
    reachable_pinnedFrequent
  exact ⟨hsmall, hbounded, (hiff 2 []).mpr (.inl (by decide +kernel))⟩

/-- One victim is asked for and key 3 is idle, but T1 is below the target and T2 has no idle
block, so eviction gives up. -/
theorem arc_gives_up_pinnedFrequent : pinnedFrequent.Reachable (arc exactRounding) 2 false 0 64000 ∧
      pinnedFrequent.policy.idle1 [] + pinnedFrequent.policy.idle2 [] = 1 ∧
      ¬ pinnedFrequent.policy.EvictsExactly 1 [] := by
  have hbounded : pinnedFrequent.policy.Bounded 2 :=
    CPUOffloadingManager.Reachable.policy (closed_bounded exactRounding (by norm_num))
      (bounded_init exactRounding 2) reachable_pinnedFrequent
  refine ⟨reachable_pinnedFrequent, by decide +kernel, ?_⟩
  rw [evictsExactly_iff hbounded.separated]
  decide +kernel

end ARCCachePolicy

end Vllm.Offload
