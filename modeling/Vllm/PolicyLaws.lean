import Vllm.CachePolicies

/-!
A policy as a finite map of blocks. The manager uses nothing else of it: which
blocks it holds, that touching only reorders them, that a victim is idle and
not shielded, and that the three changes of a reference count the manager makes
keep the policy's own lists in order. LRU and ARC both satisfy these laws.
-/
namespace Vllm.Offload

open Outcome List OrderedDict

variable {κ σ : Type} [DecidableEq κ]

structure CachePolicy.Lawful (P : CachePolicy κ σ) where
  blocks : σ → List (κ × BlockStatus)
  Valid : σ → Prop
  nodup : ∀ {s}, Valid s → ((blocks s).map Prod.fst).Nodup
  get_eq_some_iff : ∀ {s k b}, Valid s → (P.get s k = some b ↔ (k, b) ∈ blocks s)
  init : ∀ capacity, Valid (P.init capacity) ∧ blocks (P.init capacity) = []
  clear : ∀ s, Valid (P.clear s) ∧ blocks (P.clear s) = []
  insert : ∀ {s k b}, Valid s → P.get s k = none → b.refCnt ≠ 0 →
    Valid (P.insert k b s) ∧ (blocks (P.insert k b s)).Perm ((k, b) :: blocks s)
  remove : ∀ {s k b}, Valid s → P.get s k = some b → Ensures (P.remove k) s
      (fun _ t => Valid t ∧ ((k, b) :: blocks t).Perm (blocks s)) fun _ _ => False
  touch : ∀ {s} ks, Valid s → Valid (P.touch ks s) ∧ (blocks (P.touch ks s)).Perm (blocks s)
  evict : ∀ {s} n shielded, Valid s → Ensures (P.evict n shielded) s
    (fun r t => Valid t ∧ match r with
      | none => t = s
      | some victims => victims.length = n ∧ (blocks s).Perm (victims ++ blocks t) ∧
        ∀ v ∈ victims, v.2.refCnt = 0 ∧ v.1 ∉ shielded)
    fun _ _ => False
  /-- A busy block stays busy. -/
  hold : ∀ {s k b r}, Valid s → P.get s k = some b → b.refCnt ≠ 0 → r ≠ 0 →
    Valid (P.setRefCnt k r s) ∧ (blocks (P.setRefCnt k r s)).Perm (withRefCnt k r (blocks s))
  /-- An idle block becomes busy. -/
  pin : ∀ {s k b r}, Valid s → P.get s k = some b → b.refCnt = 0 → r ≠ 0 →
    Ensures (P.markNonEvictable k) s
      (fun _ t => Valid (P.setRefCnt k r t) ∧
        (blocks (P.setRefCnt k r t)).Perm (withRefCnt k r (blocks s)))
      fun _ _ => False
  /-- A busy block becomes idle. -/
  release : ∀ {s k b}, Valid s → P.get s k = some b → b.refCnt ≠ 0 →
    Valid (P.markEvictable k (P.setRefCnt k 0 s)) ∧
      (blocks (P.markEvictable k (P.setRefCnt k 0 s))).Perm (withRefCnt k 0 (blocks s))

theorem CachePolicy.Lawful.get_eq_none_iff {P : CachePolicy κ σ} (L : P.Lawful) {s : σ} {k : κ}
    (hs : L.Valid s) : P.get s k = none ↔ k ∉ (L.blocks s).map Prod.fst := by
  rw [← not_iff_not, not_not, ← ne_eq, Option.ne_none_iff_exists']
  simp [L.get_eq_some_iff hs]

@[simp]
theorem map_fst_withRefCnt (k : κ) (r : ℤ) (blocks : List (κ × BlockStatus)) :
    (withRefCnt k r blocks).map Prod.fst = blocks.map Prod.fst := by
  unfold withRefCnt
  rw [map_map]
  apply map_congr_left
  intro e _
  by_cases he : e.1 = k <;> simp [he]

theorem withRefCnt_append (k : κ) (r : ℤ) (xs ys : List (κ × BlockStatus)) :
    withRefCnt k r (xs ++ ys) = withRefCnt k r xs ++ withRefCnt k r ys :=
  map_append

theorem withRefCnt_of_notMem {k : κ} {r : ℤ} {blocks : List (κ × BlockStatus)}
    (h : k ∉ blocks.map Prod.fst) : withRefCnt k r blocks = blocks := by
  unfold withRefCnt
  conv_rhs => rw [← map_id blocks]
  apply map_congr_left
  intro e he
  have hne : e.1 ≠ k := fun hek => h (mem_map.mpr ⟨e, he, hek⟩)
  simp [hne]

theorem mem_withRefCnt {k : κ} {r : ℤ} {blocks : List (κ × BlockStatus)} {e : κ × BlockStatus} :
    e ∈ withRefCnt k r blocks ↔
      (e ∈ blocks ∧ e.1 ≠ k) ∨ ∃ b, (k, b) ∈ blocks ∧ e = (k, { b with refCnt := r }) := by
  unfold withRefCnt
  rw [mem_map]
  constructor
  · intro h
    obtain ⟨f, hf, hfe⟩ := h
    by_cases hk : f.1 = k
    · right
      rw [if_pos hk] at hfe
      refine ⟨f.2, hk ▸ hf, ?_⟩
      rw [← hfe, hk]
    · left
      rw [if_neg hk] at hfe
      exact hfe ▸ ⟨hf, hk⟩
  · intro h
    rcases h with ⟨he, hk⟩ | ⟨b, hb, he⟩
    · exact ⟨e, he, if_neg hk⟩
    · refine ⟨(k, b), hb, ?_⟩
      rw [if_pos rfl, he]

/-- The entry of a key and the rest, before and after its count is changed. -/
theorem exists_rest {k : κ} {b : BlockStatus} {blocks : List (κ × BlockStatus)}
    (hmem : (k, b) ∈ blocks) (hnodup : (blocks.map Prod.fst).Nodup) :
    ∃ rest, blocks.Perm ((k, b) :: rest) ∧ k ∉ rest.map Prod.fst ∧
      ∀ r, (withRefCnt k r blocks).Perm ((k, { b with refCnt := r }) :: rest) := by
  obtain ⟨before, after, rfl⟩ := append_of_mem hmem
  rw [map_append, map_cons, nodup_middle, nodup_cons, ← map_append]
    at hnodup
  refine ⟨before ++ after, perm_middle, hnodup.1, ?_⟩
  intro r
  rw [map_append, mem_append, not_or] at hnodup
  have hcons : withRefCnt k r ((k, b) :: after) =
      (k, { b with refCnt := r }) :: withRefCnt k r after := by
    simp [withRefCnt]
  rw [withRefCnt_append, hcons, withRefCnt_of_notMem hnodup.1.1, withRefCnt_of_notMem hnodup.1.2]
  exact perm_middle

/-! ### LRU -/

namespace LRUCachePolicy

variable {s : LRUCachePolicy κ}

/-- The evictable keys are those of the idle blocks. -/
def Valid (s : LRUCachePolicy κ) : Prop :=
  ∀ k, k ∈ s.evictableBlocks.keys ↔ ∃ b, (k, b) ∈ s.blocks.entries ∧ b.refCnt = 0

/-- On idle keys the scan finds the first `n` that are not shielded. -/
theorem candidates_spec (blocks : OrderedDict κ BlockStatus) (shielded : List κ) (n : ℕ)
    (ks : List κ) (hidle : ∀ k ∈ ks, ∃ b, (k, b) ∈ blocks.entries ∧ b.refCnt = 0) :
    ∃ victims, candidates blocks shielded n ks = .ok victims ∧ victims.length ≤ n ∧
      (victims.map Prod.fst).Sublist ks ∧
      ∀ v ∈ victims, v ∈ blocks.entries ∧ v.2.refCnt = 0 ∧ v.1 ∉ shielded := by
  induction ks generalizing n with
  | nil => cases n <;> exact ⟨[], rfl, by simp, by simp, by simp⟩
  | cons k ks ih =>
    have hks : ∀ l ∈ ks, ∃ b, (l, b) ∈ blocks.entries ∧ b.refCnt = 0 :=
      fun l hl => hidle l (mem_cons_of_mem k hl)
    cases n with
    | zero => exact ⟨[], rfl, by simp, by simp, by simp⟩
    | succ n =>
      by_cases hk : k ∈ shielded
      · obtain ⟨victims, hrun, hlen, hsub, hvictims⟩ := ih (n + 1) hks
        refine ⟨victims, ?_, hlen, hsub.cons k, hvictims⟩
        rw [candidates, if_pos hk, hrun]
      · obtain ⟨b, hb, href⟩ := hidle k mem_cons_self
        obtain ⟨victims, hrun, hlen, hsub, hvictims⟩ := ih n hks
        refine ⟨(k, b) :: victims, ?_, by simpa using hlen, ?_, ?_⟩
        · rw [candidates, if_neg hk, get?_eq_some_iff.mpr hb]
          dsimp only
          rw [if_pos href, hrun]
          rfl
        · rw [map_cons]
          exact hsub.cons_cons k
        · intro v hv
          rcases mem_cons.mp hv with rfl | hv
          · exact ⟨hb, href, hk⟩
          · exact hvictims v hv

/-- LRU evicts idle blocks, exactly as many as asked for, or refuses and changes nothing. -/
theorem evict_spec (n : ℕ) (shielded : List κ) (hs : s.Valid) : Ensures (evict n shielded) s
      (fun r t => t.Valid ∧ match r with
        | none => t = s
        | some victims => victims.length = n ∧ s.blocks.entries.Perm (victims ++ t.blocks.entries) ∧
          ∀ v ∈ victims, v.2.refCnt = 0 ∧ v.1 ∉ shielded)
      fun _ _ => False := by
  unfold evict
  rw [ensures_bind, ensures_get, ensures_ite]
  refine ⟨?_, ?_⟩
  · intro hn
    rw [ensures_pure]
    exact ⟨hs, hn.symm, List.Perm.refl _, by simp⟩
  · intro _
    obtain ⟨victims, hrun, hlen, hsub, hvictims⟩ :=
      candidates_spec s.blocks shielded n s.evictableBlocks.keys fun k hk => (hs k).mp hk
    rw [hrun]
    dsimp only
    rw [ensures_ite]
    refine ⟨fun _ => ⟨hs, rfl⟩, ?_⟩
    intro henough
    rw [ensures_bind, ensures_set, ensures_pure]
    have hnodup : (victims.map Prod.fst).Nodup := s.evictableBlocks.nodup.sublist hsub
    refine ⟨?_, by omega, ?_, fun v hv => (hvictims v hv).2⟩
    · intro k
      have hold := hs k
      rw [mem_keys_iff] at hold ⊢
      simp only [mem_entries_eraseAll]
      constructor
      · intro h
        obtain ⟨u, hu, hk⟩ := h
        obtain ⟨b, hb, href⟩ := hold.mp ⟨u, hu⟩
        exact ⟨b, ⟨hb, hk⟩, href⟩
      · intro h
        obtain ⟨b, ⟨hb, hk⟩, href⟩ := h
        obtain ⟨u, hu⟩ := hold.mpr ⟨b, hb, href⟩
        exact ⟨u, hu, hk⟩
    · exact (entries_eraseAll_perm victims (fun v hv => (hvictims v hv).1) hnodup).symm

theorem mem_keys_touch (ks : List κ) (k : κ) :
    k ∈ (touch ks s).evictableBlocks.keys ↔ k ∈ s.evictableBlocks.keys := by
  have hfold : ∀ (ls : List κ) (d : OrderedDict κ PUnit),
      k ∈ (ls.foldl (fun d k => d.moveToEnd k) d).keys ↔ k ∈ d.keys := by
    intro ls
    induction ls with
    | nil => intro d; rfl
    | cons l ls ih =>
      intro d
      rw [foldl_cons, ih, mem_keys_moveToEnd]
  exact hfold ks.reverse s.evictableBlocks

end LRUCachePolicy

/-- A key is idle after an assignment if it was, or if it was set to 0. -/
theorem exists_idle_withRefCnt {d : OrderedDict κ BlockStatus} {k l : κ} {b : BlockStatus} {r : ℤ}
    (hb : (k, b) ∈ d.entries) :
    (∃ c, (l, c) ∈ withRefCnt k r d.entries ∧ c.refCnt = 0) ↔
      if l = k then r = 0 else ∃ c, (l, c) ∈ d.entries ∧ c.refCnt = 0 := by
  by_cases hl : l = k
  · subst hl
    rw [if_pos rfl]
    constructor
    · intro h
      obtain ⟨c, hc, href⟩ := h
      rcases mem_withRefCnt.mp hc with ⟨_, hne⟩ | ⟨b', _, he⟩
      · exact absurd rfl hne
      · cases he
        exact href
    · intro hr
      exact ⟨{ b with refCnt := r }, mem_withRefCnt.mpr (.inr ⟨b, hb, rfl⟩), hr⟩
  · rw [if_neg hl]
    constructor
    · intro h
      obtain ⟨c, hc, href⟩ := h
      rcases mem_withRefCnt.mp hc with ⟨hmem, _⟩ | ⟨b', _, he⟩
      · exact ⟨c, hmem, href⟩
      · exact absurd (congrArg Prod.fst he) hl
    · intro h
      obtain ⟨c, hc, href⟩ := h
      exact ⟨c, mem_withRefCnt.mpr (.inl ⟨hc, hl⟩), href⟩

def lruLawful : (lru : CachePolicy κ (LRUCachePolicy κ)).Lawful where
  blocks s := s.blocks.entries
  Valid := LRUCachePolicy.Valid
  nodup {s} _ := s.blocks.nodup
  get_eq_some_iff _ := OrderedDict.get?_eq_some_iff
  init _ := ⟨fun _ => by simp [lru, OrderedDict.empty, OrderedDict.keys], rfl⟩
  clear _ := ⟨fun _ => by simp [lru, OrderedDict.empty, OrderedDict.keys], rfl⟩
  insert {s k b} hs hnone href := by
    have hfresh : k ∉ s.blocks.keys := OrderedDict.get?_eq_none_iff.mp hnone
    refine ⟨?_, ?_⟩
    · intro l
      change l ∈ (if b.refCnt = 0 then _ else s.evictableBlocks).keys ↔
        ∃ c, (l, c) ∈ (s.blocks.set k b).entries ∧ c.refCnt = 0
      rw [if_neg href, hs l]
      simp only [OrderedDict.mem_entries_set]
      constructor
      · intro h
        obtain ⟨c, hc, hidle⟩ := h
        refine ⟨c, .inr ⟨hc, ?_⟩, hidle⟩
        exact fun hlk => hfresh (hlk ▸ OrderedDict.keys_of_mem hc)
      · intro h
        obtain ⟨c, hc | hc, hidle⟩ := h
        · cases hc
          exact absurd hidle href
        · exact ⟨c, hc.1, hidle⟩
    · change (s.blocks.set k b).entries.Perm _
      rw [OrderedDict.entries_set_of_notMem hfresh]
      exact List.perm_append_singleton _ _
  remove {s k b} hs hget := by
    have hmem := OrderedDict.get?_eq_some_iff.mp hget
    change Ensures (LRUCachePolicy.remove k) s _ _
    unfold LRUCachePolicy.remove
    rw [ensures_bind, ensures_get, ensures_bind, ensures_check]
    refine ⟨fun _ => ⟨?_, OrderedDict.entries_erase_perm hmem⟩,
      fun hnot => hnot (OrderedDict.keys_of_mem hmem)⟩
    intro l
    dsimp only
    rw [OrderedDict.mem_keys_erase, hs l]
    simp only [OrderedDict.mem_entries_erase]
    tauto
  touch {s} ks hs :=
    ⟨fun k => (LRUCachePolicy.mem_keys_touch ks k).trans (hs k), List.Perm.refl _⟩
  evict n shielded hs := LRUCachePolicy.evict_spec n shielded hs
  hold {s k b r} hs hget hbusy hr := by
    have hmem := OrderedDict.get?_eq_some_iff.mp hget
    refine ⟨?_, List.Perm.refl _⟩
    intro l
    change l ∈ s.evictableBlocks.keys ↔ ∃ c, (l, c) ∈ withRefCnt k r s.blocks.entries ∧ c.refCnt = 0
    rw [exists_idle_withRefCnt hmem, hs l]
    by_cases hl : l = k
    · subst hl
      rw [if_pos rfl]
      refine ⟨?_, fun h => absurd h hr⟩
      intro h
      obtain ⟨c, hc, hidle⟩ := h
      exact absurd (OrderedDict.value_unique hc hmem ▸ hidle) hbusy
    · rw [if_neg hl]
  pin {s k b r} hs hget hidle hr := by
    have hmem := OrderedDict.get?_eq_some_iff.mp hget
    change Ensures (LRUCachePolicy.markNonEvictable k) s _ _
    unfold LRUCachePolicy.markNonEvictable
    rw [ensures_bind, ensures_get, ensures_bind, ensures_check]
    refine ⟨fun _ => ⟨?_, List.Perm.refl _⟩, fun hnot => hnot ((hs k).mpr ⟨b, hmem, hidle⟩)⟩
    intro l
    change l ∈ (s.evictableBlocks.erase k).keys ↔
      ∃ c, (l, c) ∈ withRefCnt k r s.blocks.entries ∧ c.refCnt = 0
    rw [exists_idle_withRefCnt hmem, OrderedDict.mem_keys_erase, hs l]
    by_cases hl : l = k
    · simp [hl, hr]
    · simp [hl]
  release {s k b} hs hget _ := by
    have hmem := OrderedDict.get?_eq_some_iff.mp hget
    refine ⟨?_, List.Perm.refl _⟩
    intro l
    change l ∈ (s.evictableBlocks.set k ⟨⟩).keys ↔
      ∃ c, (l, c) ∈ withRefCnt k 0 s.blocks.entries ∧ c.refCnt = 0
    rw [exists_idle_withRefCnt hmem, OrderedDict.mem_keys_set, hs l]
    by_cases hl : l = k
    · simp [hl]
    · simp [hl]

/-! ### ARC -/

namespace ARCCachePolicy

variable {s : ARCCachePolicy κ}

def blocks (s : ARCCachePolicy κ) : List (κ × BlockStatus) := s.t1.entries ++ s.t2.entries

/-- No key is in two of the four lists. -/
structure Separated (s : ARCCachePolicy κ) : Prop where
  t1_t2 : ∀ k ∈ s.t1.keys, k ∉ s.t2.keys
  t1_b1 : ∀ k ∈ s.t1.keys, k ∉ s.b1.keys
  t1_b2 : ∀ k ∈ s.t1.keys, k ∉ s.b2.keys
  t2_b1 : ∀ k ∈ s.t2.keys, k ∉ s.b1.keys
  t2_b2 : ∀ k ∈ s.t2.keys, k ∉ s.b2.keys
  b1_b2 : ∀ k ∈ s.b1.keys, k ∉ s.b2.keys

theorem get_eq_some_iff {k : κ} {b : BlockStatus} (hs : s.Separated) :
    s.get k = some b ↔ (k, b) ∈ s.blocks := by
  unfold get blocks
  rw [mem_append, ← get?_eq_some_iff, ← get?_eq_some_iff]
  cases h1 : s.t1.get? k with
  | none => simp
  | some c =>
    have hmem : k ∈ s.t1.keys := keys_of_mem (get?_eq_some_iff.mp h1)
    have hnot : s.t2.get? k = none := get?_eq_none_iff.mpr (hs.t1_t2 k hmem)
    simp [hnot]

theorem get_eq_none_iff {k : κ} : s.get k = none ↔ k ∉ s.t1.keys ∧ k ∉ s.t2.keys := by
  unfold get
  rw [Option.or_eq_none_iff, get?_eq_none_iff, get?_eq_none_iff]

omit [DecidableEq κ] in
theorem nodup_blocks (hs : s.Separated) : (s.blocks.map Prod.fst).Nodup := by
  unfold blocks
  rw [map_append, nodup_append']
  exact ⟨s.t1.nodup, s.t2.nodup, fun _ h1 h2 => hs.t1_t2 _ h1 h2⟩

def Idle (shielded : List κ) (e : κ × BlockStatus) : Prop := e.2.refCnt = 0 ∧ e.1 ∉ shielded

instance (shielded : List κ) : DecidablePred (Idle shielded) := fun _ => instDecidableAnd

variable {shielded : List κ} {it rest : List (κ × BlockStatus)}

/-- The iterator skips blocks that are busy or shielded. -/
theorem nextCandidate_eq_some {e : κ × BlockStatus}
    (h : nextCandidate shielded it = (some e, rest)) :
    ∃ skipped, it = skipped ++ e :: rest ∧ Idle shielded e ∧ ∀ f ∈ skipped, ¬ Idle shielded f := by
  induction it with
  | nil => cases h
  | cons f it ih =>
    rw [nextCandidate] at h
    by_cases hf : f.2.refCnt = 0 ∧ f.1 ∉ shielded
    · rw [if_pos hf] at h
      cases h
      exact ⟨[], rfl, hf, by simp⟩
    · rw [if_neg hf] at h
      obtain ⟨skipped, hsplit, he, hskip⟩ := ih h
      refine ⟨f :: skipped, by rw [hsplit]; rfl, he, ?_⟩
      intro g hg
      rcases mem_cons.mp hg with rfl | hg
      · exact hf
      · exact hskip g hg

theorem nextCandidate_eq_none (h : nextCandidate shielded it = (none, rest)) :
    rest = [] ∧ ∀ f ∈ it, ¬ Idle shielded f := by
  induction it with
  | nil =>
    cases h
    exact ⟨rfl, by simp⟩
  | cons f it ih =>
    rw [nextCandidate] at h
    by_cases hf : f.2.refCnt = 0 ∧ f.1 ∉ shielded
    · rw [if_pos hf] at h
      cases h
    · rw [if_neg hf] at h
      obtain ⟨hrest, hnone⟩ := ih h
      refine ⟨hrest, ?_⟩
      intro g hg
      rcases mem_cons.mp hg with rfl | hg
      · exact hf
      · exact hnone g hg

/-- What a successful selection has chosen: `n` idle blocks, each from the list it is
marked with, no block twice. -/
structure Chosen (shielded : List κ) (n : ℕ) (it1 it2 : List (κ × BlockStatus))
    (chosen : List ((κ × BlockStatus) × Bool)) : Prop where
  length_eq : chosen.length = n
  idle : ∀ c ∈ chosen, Idle shielded c.1
  mem : ∀ c ∈ chosen, c.1 ∈ if c.2 then it1 else it2
  subperm : (chosen.map Prod.fst).Subperm (it1 ++ it2)

omit [DecidableEq κ] in
/-- One more block in front, taken from what the rest was not chosen from. -/
theorem Chosen.cons {n : ℕ} {it1 it2 left1 left2 : List (κ × BlockStatus)}
    {rest : List ((κ × BlockStatus) × Bool)} (h : Chosen shielded n left1 left2 rest)
    {e : κ × BlockStatus} {fromT1 : Bool} (hidle : Idle shielded e) (h1 : left1.Sublist it1)
    (h2 : left2.Sublist it2) (hmem : e ∈ if fromT1 then it1 else it2)
    (hfront : (e :: (left1 ++ left2)).Subperm (it1 ++ it2)) :
    Chosen shielded (n + 1) it1 it2 ((e, fromT1) :: rest) where
  length_eq := by simp [h.length_eq]
  idle := by
    intro c hc
    rcases mem_cons.mp hc with rfl | hc
    · exact hidle
    · exact h.idle c hc
  mem := by
    intro c hc
    rcases mem_cons.mp hc with rfl | hc
    · exact hmem
    · have hleft := h.mem c hc
      cases hflag : c.2 with
      | true =>
        rw [hflag] at hleft
        exact h1.subset hleft
      | false =>
        rw [hflag] at hleft
        exact h2.subset hleft
  subperm := ((subperm_cons e).mpr h.subperm).trans hfront

/-- The simulated loop chooses idle blocks of the two lists, no block twice. -/
theorem candidates_chosen {target : ℤ} {n : ℕ} {virtualT1Size : ℤ}
    {it1 it2 : List (κ × BlockStatus)} {chosen : List ((κ × BlockStatus) × Bool)}
    (h : candidates target shielded n virtualT1Size it1 it2 = some chosen) :
    Chosen shielded n it1 it2 chosen := by
  induction n generalizing virtualT1Size it1 it2 chosen with
  | zero =>
    cases h
    exact ⟨rfl, by simp, by simp, nil_subperm⟩
  | succ n ih =>
    rw [candidates] at h
    obtain ⟨entry, left1, hstep⟩ : ∃ entry left1,
        (if target ≤ virtualT1Size then nextCandidate shielded it1 else (none, it1)) =
          (entry, left1) := ⟨_, _, rfl⟩
    rw [hstep] at h
    cases entry with
    | some e =>
      obtain ⟨rest, hrest, rfl⟩ := Option.map_eq_some_iff.mp h
      have hnext : nextCandidate shielded it1 = (some e, left1) := by
        split at hstep
        · exact hstep
        · cases hstep
      obtain ⟨skipped, hsplit, hidle, -⟩ := nextCandidate_eq_some hnext
      have htail : (e :: left1).Sublist it1 := hsplit ▸ sublist_append_right skipped _
      apply (ih hrest).cons hidle ((sublist_cons_self e left1).trans htail)
        (List.Sublist.refl it2)
      · exact htail.subset mem_cons_self
      · exact (htail.append_right it2).subperm
    | none =>
      -- the T1 iterator is exhausted, or it was not asked
      have hleft : left1.Sublist it1 := by
        split at hstep
        · rw [(nextCandidate_eq_none hstep).1]
          exact nil_sublist _
        · cases hstep
          exact List.Sublist.refl _
      obtain ⟨second, left2, hsecond⟩ : ∃ second left2,
          nextCandidate shielded it2 = (second, left2) := ⟨_, _, rfl⟩
      dsimp only at h
      rw [hsecond] at h
      cases second with
      | none => cases h
      | some e =>
        obtain ⟨rest, hrest, rfl⟩ := Option.map_eq_some_iff.mp h
        obtain ⟨skipped, hsplit, hidle, -⟩ := nextCandidate_eq_some hsecond
        have htail : (e :: left2).Sublist it2 := hsplit ▸ sublist_append_right skipped _
        apply (ih hrest).cons hidle hleft ((sublist_cons_self e left2).trans htail)
        · exact htail.subset mem_cons_self
        · have hmid : (e :: (left1 ++ left2)).Perm (left1 ++ e :: left2) := perm_middle.symm
          exact hmid.subperm.trans (hleft.append htail).subperm

/-- A victim changes from its list to the ghost list. -/
theorem evictOne_spec {c : (κ × BlockStatus) × Bool} (hs : s.Separated)
    (hc : c.1 ∈ if c.2 then s.t1.entries else s.t2.entries) :
    (s.evictOne c).Separated ∧ s.blocks.Perm (c.1 :: (s.evictOne c).blocks) := by
  obtain ⟨⟨k, b⟩, fromT1⟩ := c
  unfold evictOne blocks
  cases fromT1 with
  | true =>
    have hmem : (k, b) ∈ s.t1.entries := hc
    have hk := keys_of_mem hmem
    have h12 := hs.t1_t2 k hk
    have hb2 := hs.t1_b2 k hk
    refine ⟨?_, ((entries_erase_perm hmem).append_right s.t2.entries).symm⟩
    constructor <;> intro l <;> simp only [if_true, mem_keys_erase,
      mem_keys_set]
    · exact fun h => hs.t1_t2 l h.1
    · exact fun h hl => hl.elim h.2 (hs.t1_b1 l h.1)
    · exact fun h => hs.t1_b2 l h.1
    · exact fun h hl => hl.elim (fun hlk => h12 (hlk ▸ h)) (hs.t2_b1 l h)
    · exact hs.t2_b2 l
    · exact fun h hl => h.elim (fun hlk => hb2 (hlk ▸ hl)) (fun h => hs.b1_b2 l h hl)
  | false =>
    have hmem : (k, b) ∈ s.t2.entries := hc
    have hk := keys_of_mem hmem
    have h12 : k ∉ s.t1.keys := fun h => hs.t1_t2 k h hk
    have hb1 := hs.t2_b1 k hk
    refine ⟨?_, ?_⟩
    · constructor <;> intro l <;> simp only [Bool.false_eq_true, if_false,
        mem_keys_erase, mem_keys_set]
      · exact fun h hl => hs.t1_t2 l h hl.1
      · exact hs.t1_b1 l
      · exact fun h hl => hl.elim (fun hlk => h12 (hlk ▸ h)) (hs.t1_b2 l h)
      · exact fun h => hs.t2_b1 l h.1
      · exact fun h hl => hl.elim h.2 (hs.t2_b2 l h.1)
      · exact fun h hl => hl.elim (fun hlk => hb1 (hlk ▸ h)) (hs.b1_b2 l h)
    · have hout := (entries_erase_perm hmem).symm.append_left s.t1.entries
      exact hout.trans perm_middle

theorem mem_evictOne {c e : (κ × BlockStatus) × Bool} (hne : e.1.1 ≠ c.1.1)
    (he : e.1 ∈ if e.2 then s.t1.entries else s.t2.entries) :
    e.1 ∈ if e.2 then (s.evictOne c).t1.entries else (s.evictOne c).t2.entries := by
  unfold evictOne
  cases hflag : c.2 <;> cases heflag : e.2 <;> simp_all

/-- The chosen victims leave one by one, and all other blocks stay. -/
theorem foldl_evictOne_spec (chosen : List ((κ × BlockStatus) × Bool)) (hs : s.Separated)
    (hmem : ∀ c ∈ chosen, c.1 ∈ if c.2 then s.t1.entries else s.t2.entries)
    (hnodup : (chosen.map fun c => c.1.1).Nodup) :
    (chosen.foldl evictOne s).Separated ∧
      s.blocks.Perm (chosen.map Prod.fst ++ (chosen.foldl evictOne s).blocks) := by
  induction chosen generalizing s with
  | nil => exact ⟨hs, List.Perm.refl _⟩
  | cons c chosen ih =>
    obtain ⟨hfresh, hrest⟩ := nodup_cons.mp hnodup
    obtain ⟨hsep, hperm⟩ := evictOne_spec hs (hmem c mem_cons_self)
    have hmem' : ∀ e ∈ chosen,
        e.1 ∈ if e.2 then (s.evictOne c).t1.entries else (s.evictOne c).t2.entries := by
      intro e he
      have hne : e.1.1 ≠ c.1.1 := fun hec => hfresh (mem_map.mpr ⟨e, he, hec⟩)
      exact mem_evictOne hne (hmem e (mem_cons_of_mem c he))
    obtain ⟨hsep', hperm'⟩ := ih hsep hmem' hrest
    exact ⟨hsep', hperm.trans (hperm'.cons c.1)⟩

omit [DecidableEq κ] in
theorem separated_trimGhosts (hs : s.Separated) : s.trimGhosts.Separated := by
  have hb1 : ∀ k ∈ s.trimGhosts.b1.keys, k ∈ s.b1.keys :=
    fun _ => mem_keys_of_mem_dropFirst
  have hb2 : ∀ k ∈ s.trimGhosts.b2.keys, k ∈ s.b2.keys :=
    fun _ => mem_keys_of_mem_dropFirst
  constructor
  · exact hs.t1_t2
  · exact fun k hk h => hs.t1_b1 k hk (hb1 k h)
  · exact fun k hk h => hs.t1_b2 k hk (hb2 k h)
  · exact fun k hk h => hs.t2_b1 k hk (hb1 k h)
  · exact fun k hk h => hs.t2_b2 k hk (hb2 k h)
  · exact fun k hk h => hs.b1_b2 k (hb1 k hk) (hb2 k h)

/-- So does ARC, whose ghost lists take the keys of the victims. -/
theorem evict_spec (n : ℕ) (shielded : List κ) (hs : s.Separated) : Ensures (evict n shielded) s
      (fun r t => t.Separated ∧ match r with
        | none => t = s
        | some victims => victims.length = n ∧ s.blocks.Perm (victims ++ t.blocks) ∧
          ∀ v ∈ victims, v.2.refCnt = 0 ∧ v.1 ∉ shielded)
      fun _ _ => False := by
  unfold evict
  rw [ensures_bind]
  change Ensures (if n = 0 then _ else _) s _ _
  rw [ensures_ite]
  refine ⟨?_, ?_⟩
  · intro hn
    rw [ensures_pure]
    exact ⟨hs, hn.symm, List.Perm.refl _, by simp⟩
  · intro _
    split
    next => exact ⟨hs, rfl⟩
    next chosen hchosen =>
      have hfacts := candidates_chosen hchosen
      rw [ensures_bind, ensures_set, ensures_pure]
      have hkeys : (chosen.map fun c => c.1.1) = (chosen.map Prod.fst).map Prod.fst := by
        rw [map_map]
        rfl
      have hnodup : (chosen.map fun c => c.1.1).Nodup := by
        rw [hkeys]
        obtain ⟨l, hl, hsub⟩ := hfacts.subperm
        exact (hl.map Prod.fst).nodup_iff.mp ((nodup_blocks hs).sublist (hsub.map Prod.fst))
      obtain ⟨hsep, hperm⟩ := foldl_evictOne_spec chosen hs hfacts.mem hnodup
      refine ⟨separated_trimGhosts hsep, by simp [hfacts.length_eq], hperm, ?_⟩
      intro v hv
      obtain ⟨c, hc, rfl⟩ := mem_map.mp hv
      exact hfacts.idle c hc

omit [DecidableEq κ] in
/-- The lists matter only through their keys. -/
theorem Separated.congr {t : ARCCachePolicy κ} (hs : s.Separated)
    (h1 : ∀ k, k ∈ t.t1.keys ↔ k ∈ s.t1.keys) (h2 : ∀ k, k ∈ t.t2.keys ↔ k ∈ s.t2.keys)
    (hb1 : ∀ k, k ∈ t.b1.keys ↔ k ∈ s.b1.keys) (hb2 : ∀ k, k ∈ t.b2.keys ↔ k ∈ s.b2.keys) :
    t.Separated := by
  constructor <;> intro k <;> simp only [h1, h2, hb1, hb2]
  · exact hs.t1_t2 k
  · exact hs.t1_b1 k
  · exact hs.t1_b2 k
  · exact hs.t2_b1 k
  · exact hs.t2_b2 k
  · exact hs.b1_b2 k

variable (F : FloatRounding) (k : κ) {b : BlockStatus} (r : ℤ)

theorem separated_promote {k : κ} (hs : s.Separated) (hb : (k, b) ∈ s.t1.entries) :
    ({ s with t1 := s.t1.erase k, t2 := s.t2.set k b } : ARCCachePolicy κ).Separated := by
  have hk := keys_of_mem hb
  constructor <;> intro l <;> simp only [mem_keys_erase, mem_keys_set]
  · exact fun h hl => hl.elim h.2 (hs.t1_t2 l h.1)
  · exact fun h => hs.t1_b1 l h.1
  · exact fun h => hs.t1_b2 l h.1
  · exact fun h => h.elim (fun hlk => hlk ▸ hs.t1_b1 k hk) (hs.t2_b1 l)
  · exact fun h => h.elim (fun hlk => hlk ▸ hs.t1_b2 k hk) (hs.t2_b2 l)
  · exact hs.b1_b2 l

/-- Touching a key may move it between the lists but keeps the blocks. -/
theorem touchKey_spec (hs : s.Separated) :
    (s.touchKey F k).Separated ∧ (s.touchKey F k).blocks.Perm s.blocks := by
  unfold touchKey
  split
  next b hb =>
    have hmem := get?_eq_some_iff.mp hb
    have hk := keys_of_mem hmem
    by_cases hready : b.isReady
    · rw [if_neg (not_not.mpr hready)]
      refine ⟨separated_promote hs hmem, ?_⟩
      have hset := entries_set_of_notMem (v := b) (hs.t1_t2 k hk)
      have hperm := (entries_erase_perm hmem).append_right s.t2.entries
      unfold blocks
      dsimp only
      rw [hset, ← append_assoc]
      exact (perm_append_singleton _ _).trans hperm
    · rw [if_pos hready]
      have hperm := entries_set_erase_perm hmem
      refine ⟨hs.congr (fun l => (hperm.map Prod.fst).mem_iff) ?_ ?_ ?_,
        hperm.append_right s.t2.entries⟩ <;> exact fun _ => Iff.rfl
  next =>
    split_ifs
    · refine ⟨hs.congr (fun _ => Iff.rfl) (fun _ => mem_keys_moveToEnd)
        (fun _ => Iff.rfl) (fun _ => Iff.rfl), ?_⟩
      exact entries_moveToEnd_perm.append_left s.t1.entries
    · exact ⟨hs.congr (fun _ => Iff.rfl) (fun _ => Iff.rfl)
        (fun _ => mem_keys_moveToEnd) (fun _ => Iff.rfl), List.Perm.refl _⟩
    · exact ⟨hs.congr (fun _ => Iff.rfl) (fun _ => Iff.rfl) (fun _ => Iff.rfl)
        (fun _ => mem_keys_moveToEnd), List.Perm.refl _⟩
    · exact ⟨hs, List.Perm.refl _⟩

theorem touch_spec (ks : List κ) (hs : s.Separated) :
    (s.touch F ks).Separated ∧ (s.touch F ks).blocks.Perm s.blocks := by
  unfold touch
  generalize ks.reverse = ls
  induction ls generalizing s with
  | nil => exact ⟨hs, List.Perm.refl _⟩
  | cons k ls ih =>
    obtain ⟨hsep, hperm⟩ := touchKey_spec F k hs
    obtain ⟨hsep', hperm'⟩ := ih hsep
    exact ⟨hsep', hperm'.trans hperm⟩

/-- A key that returns from a ghost list is in one list only. -/
theorem separated_insert {k : κ} (b : BlockStatus) (hs : s.Separated) (hk : k ∉ s.t2.keys) :
    (s.insert k b).Separated := by
  unfold insert
  constructor <;> intro l <;> simp only [mem_keys_erase, mem_keys_set]
  · exact fun h => h.elim (fun hlk => hlk ▸ hk) (hs.t1_t2 l)
  · exact fun h hl => h.elim hl.2 fun h => hs.t1_b1 l h hl.1
  · exact fun h hl => h.elim hl.2 fun h => hs.t1_b2 l h hl.1
  · exact fun h hl => hs.t2_b1 l h hl.1
  · exact fun h hl => hs.t2_b2 l h hl.1
  · exact fun h hl => hs.b1_b2 l h.1 hl.1

theorem separated_remove (hs : s.Separated) : (s.remove k).Separated := by
  unfold remove
  split_ifs
  · constructor <;> intro l <;> simp only [mem_keys_erase]
    · exact fun h => hs.t1_t2 l h.1
    · exact fun h => hs.t1_b1 l h.1
    · exact fun h => hs.t1_b2 l h.1
    · exact hs.t2_b1 l
    · exact hs.t2_b2 l
    · exact hs.b1_b2 l
  · constructor <;> intro l <;> simp only [mem_keys_erase]
    · exact fun h hl => hs.t1_t2 l h hl.1
    · exact hs.t1_b1 l
    · exact hs.t1_b2 l
    · exact fun h => hs.t2_b1 l h.1
    · exact fun h => hs.t2_b2 l h.1
    · exact hs.b1_b2 l

theorem blocks_remove_perm {k : κ} (hs : s.Separated) (hb : (k, b) ∈ s.blocks) :
    ((k, b) :: (s.remove k).blocks).Perm s.blocks := by
  unfold remove
  rcases mem_append.mp hb with hb | hb
  · rw [if_pos (keys_of_mem hb)]
    exact (entries_erase_perm hb).append_right s.t2.entries
  · rw [if_neg fun h => hs.t1_t2 k h (keys_of_mem hb)]
    exact perm_middle.symm.trans ((entries_erase_perm hb).append_left s.t1.entries)

theorem separated_setRefCnt (hs : s.Separated) : ((arc F).setRefCnt k r s).Separated :=
  hs.congr (fun l => by simp [arc]) (fun l => by simp [arc]) (fun _ => Iff.rfl) (fun _ => Iff.rfl)

theorem blocks_setRefCnt : ((arc F).setRefCnt k r s).blocks = withRefCnt k r s.blocks :=
  (withRefCnt_append k r s.t1.entries s.t2.entries).symm

end ARCCachePolicy

def arcLawful (F : FloatRounding) : (arc F : CachePolicy κ (ARCCachePolicy κ)).Lawful where
  blocks := ARCCachePolicy.blocks
  Valid := ARCCachePolicy.Separated
  nodup := ARCCachePolicy.nodup_blocks
  get_eq_some_iff := ARCCachePolicy.get_eq_some_iff
  init _ := ⟨by constructor <;> simp [arc, OrderedDict.empty, OrderedDict.keys], rfl⟩
  clear _ := ⟨by constructor <;> simp [arc, OrderedDict.empty, OrderedDict.keys], rfl⟩
  insert {s k b} hs hnone _ := by
    obtain ⟨h1, h2⟩ := ARCCachePolicy.get_eq_none_iff.mp hnone
    refine ⟨ARCCachePolicy.separated_insert b hs h2, ?_⟩
    change ((s.t1.set k b).entries ++ s.t2.entries).Perm _
    rw [OrderedDict.entries_set_of_notMem h1]
    exact (List.perm_append_singleton _ _).append_right s.t2.entries
  remove {_ k _} hs hget :=
    ⟨ARCCachePolicy.separated_remove k hs,
      ARCCachePolicy.blocks_remove_perm hs ((ARCCachePolicy.get_eq_some_iff hs).mp hget)⟩
  touch ks hs := ARCCachePolicy.touch_spec F ks hs
  evict n shielded hs := ARCCachePolicy.evict_spec n shielded hs
  hold {_ k _ r} hs _ _ _ :=
    ⟨ARCCachePolicy.separated_setRefCnt F k r hs, .of_eq (ARCCachePolicy.blocks_setRefCnt F k r)⟩
  pin {_ k _ r} hs _ _ _ :=
    ⟨ARCCachePolicy.separated_setRefCnt F k r hs, .of_eq (ARCCachePolicy.blocks_setRefCnt F k r)⟩
  release {_ k _} hs _ _ :=
    ⟨ARCCachePolicy.separated_setRefCnt F k 0 hs, .of_eq (ARCCachePolicy.blocks_setRefCnt F k 0)⟩

end Vllm.Offload
