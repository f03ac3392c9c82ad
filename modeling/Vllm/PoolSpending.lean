import Vllm.KVCacheRuns
import Vllm.PoolFreeList

/-!
Accounting for free blocks. An operation starts with an allowance of free
blocks and ends with what is left of it; whatever it takes out of the free
queue comes out of the allowance. Allowances of the groups add up, so a loop
over the groups stays within the sum, and no group can use up the blocks of
another.
-/
namespace Vllm.PoolSpending

open List

open Outcome Pool PoolSteps PoolFreeList CacheManagers KVCacheManager

variable {n m : ℕ} {p q : BlockPool n} {a b : ℕ}

def Consistent (p : BlockPool n) : Prop := ∃ free, FreeListInv p free

structure Grown (p q : BlockPool n) : Prop where
  refCnt : ∀ b, (p.blocks b).refCnt ≤ (q.blocks b).refCnt
  isNull : ∀ b, (q.blocks b).isNull = (p.blocks b).isNull

theorem Grown.refl (p : BlockPool n) : Grown p p := ⟨fun _ => le_rfl, fun _ => rfl⟩

variable {u : BlockPool n}

theorem Grown.trans (h : Grown p q) (h' : Grown q u) : Grown p u :=
  ⟨fun b => (h.refCnt b).trans (h'.refCnt b), fun b => (h'.isNull b).trans (h.isNull b)⟩

theorem Recounted.grown {d : Fin n → ℤ} (h : Recounted d p q)
    (hd : ∀ b, 0 ≤ d b) : Grown p q :=
  ⟨fun b => by rw [h.refCnt]; exact le_add_of_nonneg_right (hd b), h.isNull⟩

/-- From `p` to `q` at most the allowance `a` was spent, and `b` is left. -/
structure Spent (a b : ℕ) (p q : BlockPool n) : Prop where
  consistent : Consistent q
  grown : Grown p q
  count : p.getNumFreeBlocks + b ≤ q.getNumFreeBlocks + a

theorem Spent.refl (hp : Consistent p) (h : b ≤ a) : Spent a b p p :=
  ⟨hp, .refl p, Nat.add_le_add_left h _⟩

section
variable (h : Spent a b p q)
include h

/-- What one part leaves of an allowance the next may spend. -/
theorem Spent.trans {c : ℕ} (h' : Spent b c q u) : Spent a c p u := by
  refine ⟨h'.consistent, h.grown.trans h'.grown, ?_⟩
  have := h.count
  have := h'.count
  omega

/-- Allowances of several groups add up. -/
theorem Spent.add {c d : ℕ} (h' : Spent c d q u) : Spent (a + c) (b + d) p u := by
  refine ⟨h'.consistent, h.grown.trans h'.grown, ?_⟩
  have := h.count
  have := h'.count
  omega

theorem Spent.mono {a' b' : ℕ} (ha : a ≤ a' + (b - b')) (hb : b' ≤ b) : Spent a' b' p q := by
  refine ⟨h.consistent, h.grown, ?_⟩
  have := h.count
  omega

/-- What is left of a covered allowance is covered. -/
theorem Spent.covered (ha : a ≤ p.getNumFreeBlocks) : b ≤ q.getNumFreeBlocks := by
  have := h.count
  omega
end

/-! ### Pool operations -/

/-- Drawing within the allowance never finds the pool empty. -/
theorem getNewBlocks_spent (hp : Consistent p) {k : ℕ} (hk : k ≤ a)
    (ha : a ≤ p.getNumFreeBlocks) :
    Ensures (getNewBlocks k) p
      (fun r q => r.length = k ∧ Spent a (a - k) p q ∧ ∀ b ∈ r, 0 < (q.blocks b).refCnt)
      (fun _ _ => False) := by
  obtain ⟨free, hfree⟩ := hp
  rw [hfree.count] at ha
  refine (getNewBlocks_spec hfree k).mono ?_ ?_
  · rintro r q ⟨_, rfl, hq, hcount⟩
    refine ⟨by simp; omega, ⟨⟨_, hq⟩, Recounted.grown hcount (by simp), ?_⟩, fun b hb => ?_⟩
    · rw [hfree.count, hq.count, length_drop]
      omega
    · have hzero := ((hfree.mem_iff b).mp (mem_of_mem_take hb)).2
      have hone := count_pos_iff.mpr hb
      rw [hcount.refCnt, hzero]
      omega
  · rintro e t ⟨hlt, -, -⟩
    omega

theorem length_le_length_diff (free bs : List (Fin n)) :
    free.length ≤ (free.diff bs).length + (bs.filter (· ∈ free)).length := by
  induction bs generalizing free with
  | nil => simp
  | cons b bs ih =>
    rw [diff_cons]
    have hmono : (bs.filter (· ∈ free.erase b)).length ≤ (bs.filter (· ∈ free)).length :=
      (monotone_filter_right bs fun c hc => by
        simp only [decide_eq_true_eq] at hc ⊢
        exact mem_of_mem_erase hc).length_le
    have hrest := ih (free.erase b)
    by_cases hb : b ∈ free
    · have hlen := length_erase_of_mem hb
      have hpos := length_pos_of_mem hb
      rw [filter_cons_of_pos (by simpa using hb), length_cons]
      omega
    · rw [erase_of_not_mem hb] at hrest ⊢
      rw [filter_cons_of_neg (by simpa using hb)]
      exact hrest

/-- The evictable hits are those on the free list. -/
theorem getNumEvictableBlocks_eq {free : List (Fin n)} (h : FreeListInv p free)
    (bs : List (Fin n)) : getNumEvictableBlocks p bs = (bs.filter (· ∈ free)).length := by
  unfold getNumEvictableBlocks
  congr 1
  refine filter_congr fun b _ => ?_
  rw [decide_eq_decide, h.mem_iff]
  exact and_comm

/-- Touching hits spends those that were free. -/
theorem touch_spent (hp : Consistent p) (bs : List (Fin n)) :
    Ensures (touch bs) p (fun _ q => Spent (getNumEvictableBlocks p bs) 0 p q)
      (fun _ _ => False) := by
  obtain ⟨free, hfree⟩ := hp
  refine (touch_spec hfree bs).imp ?_
  rintro _ q ⟨hq, hcount⟩
  refine ⟨⟨_, hq⟩, Recounted.grown hcount (by simp), ?_⟩
  rw [hfree.count, hq.count, getNumEvictableBlocks_eq hfree]
  exact length_le_length_diff free bs

theorem addRef_spent (hp : Consistent p) {b : Fin n}
    (hb : 0 < (p.blocks b).refCnt) (a : ℕ) : Spent a a p (p.addRef b 1) := by
  obtain ⟨free, hfree⟩ := hp
  have hcount := addRef_recounted p b 1
  refine ⟨⟨free, hfree.recount hcount hfree.represents ?_ hfree.null_notMem⟩,
    Recounted.grown hcount fun c => by split_ifs <;> simp, le_rfl⟩
  intro c hc
  have hnonneg := hfree.nonneg c hc
  by_cases hcb : c = b
  · subst hcb
    have hnot : c ∉ free := fun hmem => by
      have := ((hfree.mem_iff c).mp hmem).2
      omega
    simp only [hnot, false_iff, if_true]
    omega
  · rw [if_neg hcb, Int.add_zero, hfree.mem_iff]
    exact ⟨⟨fun h => h.2, fun h => ⟨hc, h⟩⟩, hnonneg⟩

/-- With more references fewer blocks are evictable. -/
theorem getNumEvictableBlocks_le (hp : Consistent p) (h : Grown p q)
    {bs cs : List (Fin n)} (hsub : bs.Sublist cs) :
    getNumEvictableBlocks q bs ≤ getNumEvictableBlocks p cs := by
  obtain ⟨free, hfree⟩ := hp
  unfold getNumEvictableBlocks
  refine le_trans ?_ (hsub.filter _).length_le
  refine (monotone_filter_right bs fun b hb => ?_).length_le
  simp only [decide_eq_true_eq] at hb ⊢
  have hnull : (p.blocks b).isNull = false := by
    rw [← h.isNull]
    exact hb.2
  have hle := h.refCnt b
  have hnonneg := hfree.nonneg b hnull
  exact ⟨by omega, hnull⟩

/-! ### Operations of a group -/

/-- The operation spends at most the allowance `a`, in both outcomes, and is
not stopped for want of blocks; `left` is what remains when it returns. -/
def Spends {α : Type} (a : ℕ) (op : ManagerM n α) (g : Group n) (left : Manager n → ℕ) : Prop :=
  Ensures op g (fun _ t => Spent a (left t.manager) g.pool t.pool)
    (fun e t => Spent a 0 g.pool t.pool ∧ ∀ message, e ≠ .valueError message)

def total (l : List (Fin m)) (f : Fin m → ℕ) : ℕ := (l.map f).sum

theorem total_cons (i : Fin m) (l : List (Fin m)) (f : Fin m → ℕ) :
    total (i :: l) f = f i + total l f := sum_cons

theorem total_mono {f f' : Fin m → ℕ} (h : ∀ i, f i ≤ f' i) (l : List (Fin m)) :
    total l f ≤ total l f' := by
  induction l with
  | nil => exact le_rfl
  | cons i l ih =>
    rw [total_cons, total_cons]
    exact Nat.add_le_add (h i) ih

/-- The groups run one after the other, each within its own allowance. -/
theorem forGroups_spends {op : Fin m → ManagerM n PUnit} {before : Fin m → ℕ}
    (left : Fin m → Manager n → ℕ) {s : CacheState n m} (hs : Consistent s.pool)
    (hfree : total (List.finRange m) before ≤ s.pool.getNumFreeBlocks)
    (hop : ∀ i p, Consistent p → Grown s.pool p → before i ≤ p.getNumFreeBlocks →
      Spends (before i) (op i) ⟨p, s.managers i⟩ (left i)) :
    Ensures (forGroups op) s
      (fun _ t => Spent (total (List.finRange m) before)
        (total (List.finRange m) fun i => left i (t.managers i)) s.pool t.pool)
      (fun e t => Spent (total (List.finRange m) before) 0 s.pool t.pool ∧
        ∀ message, e ≠ .valueError message) := by
  -- the groups of `l` are still as they were in `s`, the pool has only grown
  suffices hloop : ∀ (l : List (Fin m)) (t : CacheState n m), l.Nodup → Consistent t.pool →
      Grown s.pool t.pool → total l before ≤ t.pool.getNumFreeBlocks →
      (∀ i ∈ l, t.managers i = s.managers i) →
      Ensures (forM l fun i => onGroup i (op i)) t
        (fun _ u => Spent (total l before) (total l fun i => left i (u.managers i)) t.pool u.pool ∧
          ∀ i, i ∉ l → u.managers i = t.managers i)
        (fun e u => Spent (total l before) 0 t.pool u.pool ∧ ∀ message, e ≠ .valueError message) by
    refine (hloop _ s (nodup_finRange m) hs (.refl _) hfree fun _ _ => rfl).imp ?_
    exact fun _ _ h => h.1
  intro l
  induction l with
  | nil => exact fun t _ ht _ _ _ => ⟨.refl ht le_rfl, fun _ _ => rfl⟩
  | cons j l ih =>
    intro t hl ht hgrown hle hsame
    obtain ⟨hj, hl⟩ := nodup_cons.mp hl
    rw [total_cons] at hle ⊢
    have hstep := hop j t.pool ht hgrown (by omega)
    rw [← hsame j mem_cons_self] at hstep
    rw [forM_cons, ensures_bind, onGroup, ensures_zoom]
    refine hstep.mono ?_ ?_
    · intro _ g hg
      have hrest := hg.count
      have hother : ∀ i, i ≠ j → (t.setGroup j g).managers i = t.managers i := fun i hi =>
        Function.update_of_ne hi _ _
      refine (ih (t.setGroup j g) hl hg.consistent (hgrown.trans hg.grown) ?_ ?_).mono ?_ ?_
      · change _ ≤ g.pool.getNumFreeBlocks
        dsimp only [CacheState.group] at hrest
        omega
      · intro i hi
        rw [hother i (fun h => hj (h ▸ hi))]
        exact hsame i (mem_cons_of_mem j hi)
      · rintro _ u ⟨hu, hframe⟩
        have hmanager : u.managers j = g.manager := by
          rw [hframe j hj]
          exact Function.update_self _ _ _
        refine ⟨?_, fun i hi => ?_⟩
        · rw [total_cons, hmanager]
          exact hg.add hu
        · rw [mem_cons, not_or] at hi
          rw [hframe i hi.2, hother i hi.1]
      · rintro e u ⟨hu, he⟩
        refine ⟨(hg.add hu).mono ?_ (Nat.zero_le _), he⟩
        omega
    · rintro e g ⟨hg, he⟩
      exact ⟨hg.mono (by omega) le_rfl, he⟩

end Vllm.PoolSpending
