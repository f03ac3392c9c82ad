import Vllm.PoolSteps

/-!
The free list of the block pool. The links of the free queue spell out exactly
the non-null blocks without references, and every operation of the pool keeps
them so. Caching operations leave queue and reference counts alone
(`SameCounts`); the others are list operations on the free blocks. Runs keep a
ledger of the references that callers hold.
-/
namespace Vllm.PoolFreeList

open Outcome BlockHashMap FreeBlockQueue Pool Pool.BlockPool PoolSteps List

variable {n : ℕ} {s : BlockPool n} {free : List (Fin n)}

/-- The free queue spells out the list `free` of the non-null blocks without
references, and no non-null block has a negative count. -/
structure FreeListInv (s : BlockPool n) (free : List (Fin n)) : Prop where
  represents : Represents s.freeBlockQueue free
  mem_iff : ∀ b, b ∈ free ↔ (s.blocks b).isNull = false ∧ (s.blocks b).refCnt = 0
  null_iff : ∀ b, (s.blocks b).isNull = true ↔ b = s.nullBlock
  nonneg : ∀ b, (s.blocks b).isNull = false → 0 ≤ (s.blocks b).refCnt

variable {t : BlockPool n} {free' : List (Fin n)}

section
variable (h : FreeListInv s free)
include h

theorem FreeListInv.of_sameCounts (hst : SameCounts s t) : FreeListInv t free where
  represents := hst.queue ▸ h.represents
  mem_iff b := by
    rw [hst.isNull, hst.refCnt]
    exact h.mem_iff b
  null_iff b := by
    rw [hst.isNull, hst.nullBlock]
    exact h.null_iff b
  nonneg b := by
    rw [hst.isNull, hst.refCnt]
    exact h.nonneg b

theorem FreeListInv.count : s.getNumFreeBlocks = free.length := h.represents.count

/-- A new queue and new counts that agree with each other. -/
theorem FreeListInv.recount {d : Fin n → ℤ} (hst : Recounted d s t)
    (hq : Represents t.freeBlockQueue free') (hmem : ∀ b, (s.blocks b).isNull = false →
      (b ∈ free' ↔ (s.blocks b).refCnt + d b = 0) ∧ 0 ≤ (s.blocks b).refCnt + d b)
    (hnull : s.nullBlock ∉ free') : FreeListInv t free' where
  represents := hq
  mem_iff b := by
    rw [hst.isNull, hst.refCnt]
    cases hb : (s.blocks b).isNull with
    | false => simpa using (hmem b hb).1
    | true =>
      have heq := (h.null_iff b).mp hb
      subst heq
      simp [hnull]
  null_iff b := by
    rw [hst.isNull, hst.nullBlock]
    exact h.null_iff b
  nonneg b hb := by
    rw [hst.isNull] at hb
    rw [hst.refCnt]
    exact (hmem b hb).2

theorem FreeListInv.null_notMem : s.nullBlock ∉ free := by
  intro hmem
  have hnull := (h.null_iff s.nullBlock).mpr rfl
  rw [((h.mem_iff _).mp hmem).1] at hnull
  cases hnull

omit h in
/-- Claiming a block without references gives it one. -/
theorem claimBlock_spec {b : Fin n} (href : (s.blocks b).refCnt = 0) :
    Ensures (claimBlock b) s (fun _ t => SameCounts (s.addRef b 1) t) (fun _ _ => False) := by
  have hevict : SameCounts s (if s.enableCaching then (s.maybeEvictCachedBlock b).2 else s) := by
    split_ifs
    · exact (maybeEvictCachedBlock_steps (P := fun _ _ => False) s b).sameCounts
    · exact SameCounts.refl s
  generalize hu : (if s.enableCaching then (s.maybeEvictCachedBlock b).2 else s) = u at hevict
  simp only [claimBlock, ensures_bind, ensures_modify, ensures_get, ensures_check, ensures_set, hu]
  refine ⟨fun _ => hevict.addRef b 1, fun hne => hne ?_⟩
  rw [hevict.refCnt, href]

omit h in
theorem claimBlocks_spec {bs : List (Fin n)} (hnd : bs.Nodup)
    (href : ∀ b ∈ bs, (s.blocks b).refCnt = 0) :
    Ensures (forM bs claimBlock) s
      (fun _ t => t.freeBlockQueue = s.freeBlockQueue ∧ Recounted (fun b => bs.count b) s t)
      (fun _ _ => False) := by
  induction bs generalizing s with
  | nil => exact ⟨rfl, (SameCounts.refl s).recounted⟩
  | cons b bs ih =>
    obtain ⟨hb, hnd⟩ := nodup_cons.mp hnd
    rw [forM_cons, ensures_bind]
    refine (claimBlock_spec (href b mem_cons_self)).imp ?_
    intro _ t ht
    have hrest : ∀ c ∈ bs, (t.blocks c).refCnt = 0 := by
      intro c hc
      have hcb : c ≠ b := fun h => hb (h ▸ hc)
      rw [ht.refCnt, addRef_refCnt, if_neg hcb, href c (mem_cons_of_mem b hc), Int.add_zero]
    refine (ih hnd hrest).imp ?_
    rintro _ u ⟨hqueue, hcount⟩
    refine ⟨hqueue.trans ht.queue, ?_⟩
    have htrans := ((addRef_recounted s b 1).trans ht.recounted).trans hcount
    simpa only [Int.add_zero, ← count_cons_eq] using htrans

/-- New blocks come from the front of the free list, and a request for too many fails without a
change. -/
theorem getNewBlocks_spec (k : ℕ) : Ensures (getNewBlocks k) s
      (fun r t => k ≤ free.length ∧ r = free.take k ∧ FreeListInv t (free.drop k) ∧
        Recounted (fun b => r.count b) s t)
      (fun e t => free.length < k ∧ t = s ∧
        e = .valueError s!"Cannot get {k} free blocks from the pool") := by
  simp only [getNewBlocks, ensures_bind, ensures_get, ensures_check, h.count]
  refine ⟨fun hk => ?_, fun hk => ⟨not_le.mp hk, trivial, trivial⟩⟩
  rw [onQueue, ensures_zoom]
  refine (popleftN_spec h.represents hk).mono ?_ (fun _ _ hfalse => hfalse.elim)
  rintro r q ⟨rfl, hq⟩
  have hnd : (free.take k).Nodup := h.represents.nodup.sublist (take_sublist k free)
  have href : ∀ b ∈ free.take k, (s.blocks b).refCnt = 0 := fun b hb =>
    ((h.mem_iff b).mp (mem_of_mem_take hb)).2
  have hclaim := claimBlocks_spec (s := { s with freeBlockQueue := q }) hnd href
  refine hclaim.mono ?_ (fun _ _ hfalse => hfalse.elim)
  rintro _ t ⟨hqueue, hcount⟩
  have hcount' : Recounted (fun b => ((free.take k).count b : ℤ)) s t :=
    ⟨hcount.refCnt, hcount.isNull, hcount.nullBlock, hcount.enableCaching⟩
  refine ⟨hk, rfl, h.recount hcount' (hqueue ▸ hq) ?_ ?_, hcount'⟩
  · intro b hb
    have hsplit : (free.take k ++ free.drop k).Nodup := by
      rw [take_append_drop]
      exact h.represents.nodup
    by_cases hfree : b ∈ free
    · have hzero := ((h.mem_iff b).mp hfree).2
      have hor : b ∈ free.take k ∨ b ∈ free.drop k := by
        rw [← mem_append, take_append_drop]
        exact hfree
      have hdisj : b ∈ free.take k → b ∉ free.drop k := fun h₁ h₂ =>
        (nodup_append.mp hsplit).2.2 b h₁ b h₂ rfl
      have hone : (free.take k).count b = if b ∈ free.take k then 1 else 0 := by
        split_ifs with hmem
        · exact count_eq_one_of_mem hnd hmem
        · exact count_eq_zero_of_not_mem hmem
      rw [hzero, hone]
      by_cases hmem : b ∈ free.take k
      · simp [hmem, hdisj hmem]
      · simp [hmem, hor.resolve_left hmem]
    · have hne : (s.blocks b).refCnt ≠ 0 := fun hzero => hfree ((h.mem_iff b).mpr ⟨hb, hzero⟩)
      have hcount : (free.take k).count b = 0 :=
        count_eq_zero_of_not_mem fun hmem => hfree (mem_of_mem_take hmem)
      have hdrop : b ∉ free.drop k := fun hmem => hfree (mem_of_mem_drop hmem)
      have hnonneg := h.nonneg b hb
      rw [hcount]
      constructor
      · simp [hdrop, hne]
      · simpa using hnonneg
  · exact fun hmem => h.null_notMem (mem_of_mem_drop hmem)

/-- A touched block leaves the free list if it was on it. -/
theorem touchBlock_spec (b : Fin n) : Ensures (touchBlock b) s
      (fun _ t => FreeListInv t (free.erase b) ∧ Recounted (fun c => if c = b then 1 else 0) s t)
      (fun _ _ => False) := by
  have hmem : ∀ c, (s.blocks c).isNull = false →
      (c ∈ free.erase b ↔ (s.blocks c).refCnt + (if c = b then 1 else 0) = 0) ∧
        0 ≤ (s.blocks c).refCnt + if c = b then 1 else 0 := by
    intro c hc
    have hnonneg := h.nonneg c hc
    by_cases hcb : c = b
    · have hnot : c ∉ free.erase b := by
        rw [hcb]
        exact fun hmem => (h.represents.nodup.mem_erase_iff.mp hmem).1 rfl
      rw [if_pos hcb]
      refine ⟨⟨fun hin => absurd hin hnot, fun hzero => ?_⟩, ?_⟩ <;> omega
    · rw [if_neg hcb, Int.add_zero, mem_erase_of_ne hcb, h.mem_iff]
      exact ⟨⟨fun h => h.2, fun h => ⟨hc, h⟩⟩, hnonneg⟩
  have hnull : s.nullBlock ∉ free.erase b := fun hin => h.null_notMem (mem_of_mem_erase hin)
  simp only [touchBlock, ensures_bind, ensures_get, ensures_onlyIf]
  refine ⟨fun hfree => ?_, fun hfree => ?_⟩
  · rw [onQueue, ensures_zoom]
    have hb : b ∈ free := (h.mem_iff b).mpr ⟨hfree.2, hfree.1⟩
    refine (remove_spec h.represents hb).mono ?_ (fun _ _ hfalse => hfalse)
    intro _ q hq
    have hcount := addRef_recounted { s with freeBlockQueue := q } b 1
    have hcount' : Recounted (fun c => if c = b then 1 else 0) s _ :=
      ⟨hcount.refCnt, hcount.isNull, hcount.nullBlock, hcount.enableCaching⟩
    exact ⟨h.recount hcount' hq hmem hnull, hcount'⟩
  · have hb : b ∉ free := fun hin => hfree ⟨((h.mem_iff b).mp hin).2, ((h.mem_iff b).mp hin).1⟩
    have hcount := addRef_recounted s b 1
    refine ⟨h.recount hcount ?_ hmem hnull, hcount⟩
    rw [erase_of_not_mem hb]
    exact h.represents

theorem touch_spec (bs : List (Fin n)) : Ensures (touch bs) s
      (fun _ t => FreeListInv t (free.diff bs) ∧ Recounted (fun b => bs.count b) s t)
      (fun _ _ => False) := by
  induction bs generalizing s free with
  | nil => exact ⟨h, (SameCounts.refl s).recounted⟩
  | cons b bs ih =>
    rw [touch, forM_cons, ensures_bind]
    refine (touchBlock_spec h b).mono ?_ (fun _ _ hfalse => hfalse)
    rintro _ t ⟨hinv, hcount⟩
    refine (ih hinv).mono ?_ (fun _ _ hfalse => hfalse)
    rintro _ u ⟨hinv', hcount'⟩
    rw [diff_cons]
    refine ⟨hinv', ?_⟩
    simpa only [← count_cons_eq] using hcount.trans hcount'

omit h in
/-- The loop of `free_blocks` only counts references. -/
theorem freeLoop_recounted (s : BlockPool n) (bs : List (Fin n)) :
    (freeLoop s bs).1.freeBlockQueue = s.freeBlockQueue ∧
      Recounted (fun b => -(bs.count b : ℤ)) s (freeLoop s bs).1 := by
  induction bs generalizing s with
  | nil => exact ⟨rfl, (SameCounts.refl s).recounted⟩
  | cons b bs ih =>
    obtain ⟨hqueue, hcount⟩ := ih (s.addRef b (-1))
    have hfst : (freeLoop s (b :: bs)).1 = (freeLoop (s.addRef b (-1)) bs).1 := by
      simp only [freeLoop]
      split_ifs <;> rfl
    have htrans := (addRef_recounted s b (-1)).trans hcount
    rw [hfst]
    refine ⟨hqueue, ?_⟩
    have hfun : (fun c => -((b :: bs).count c : ℤ)) =
        fun c => (if c = b then (-1 : ℤ) else 0) + -(bs.count c : ℤ) := by
      funext c
      rw [count_cons_eq]
      split_ifs <;> omega
    rw [hfun]
    exact htrans

omit h in
/-- Of the blocks a loop frees, those are sorted for the queue whose last
reference goes, each of them once. -/
theorem freeLoop_sorted (s : BlockPool n) (bs : List (Fin n))
    (hheld : ∀ b, (s.blocks b).isNull = false → (bs.count b : ℤ) ≤ (s.blocks b).refCnt) :
    ((freeLoop s bs).2.1 ++ (freeLoop s bs).2.2).Nodup ∧
      ∀ b, b ∈ (freeLoop s bs).2.1 ++ (freeLoop s bs).2.2 ↔
        b ∈ bs ∧ (s.blocks b).isNull = false ∧ (s.blocks b).refCnt = bs.count b := by
  induction bs generalizing s with
  | nil => exact ⟨nodup_nil, fun b => by simp [freeLoop]⟩
  | cons b bs ih =>
    have hcount (c : Fin n) : ((s.addRef b (-1)).blocks c).refCnt - bs.count c =
        (s.blocks c).refCnt - (b :: bs).count c := by
      rw [addRef_refCnt, count_cons_eq]
      split_ifs <;> omega
    obtain ⟨hnd, hmem⟩ := ih (s.addRef b (-1)) fun c hc => by
      have hle := hheld c (by rwa [addRef_isNull] at hc)
      have hc' := hcount c
      omega
    -- what the rest of the loop sorts, in terms of the state before it
    have hrest (c : Fin n) :
        c ∈ (freeLoop (s.addRef b (-1)) bs).2.1 ++ (freeLoop (s.addRef b (-1)) bs).2.2 ↔
          c ∈ bs ∧ (s.blocks c).isNull = false ∧ (s.blocks c).refCnt = (b :: bs).count c := by
      have hc' := hcount c
      rw [hmem, addRef_isNull]
      refine and_congr_right fun _ => and_congr_right fun _ => ?_
      omega
    by_cases hzero : ((s.addRef b (-1)).blocks b).refCnt = 0 ∧
        ((s.addRef b (-1)).blocks b).isNull = false
    · have hb : b ∉ bs := by
        intro hin
        have hpos := count_pos_iff.mpr hin
        have hle := hheld b (by simpa using hzero.2)
        have hb' := hcount b
        rw [hzero.1] at hb'
        omega
      have hnew : (s.blocks b).isNull = false ∧ (s.blocks b).refCnt = (b :: bs).count b := by
        have hb' := hcount b
        rw [hzero.1, count_eq_zero_of_not_mem hb] at hb'
        exact ⟨by simpa using hzero.2, by omega⟩
      have hout : b ∉ (freeLoop (s.addRef b (-1)) bs).2.1 ++ (freeLoop (s.addRef b (-1)) bs).2.2 :=
        fun hin => hb ((hrest b).mp hin).1
      have hperm : List.Perm ((freeLoop s (b :: bs)).2.1 ++ (freeLoop s (b :: bs)).2.2)
          (b :: ((freeLoop (s.addRef b (-1)) bs).2.1 ++ (freeLoop (s.addRef b (-1)) bs).2.2)) := by
        simp only [freeLoop, if_pos hzero]
        split_ifs
        · exact List.Perm.refl _
        · exact perm_middle
      refine ⟨hperm.nodup_iff.mpr (nodup_cons.mpr ⟨hout, hnd⟩), fun c => ?_⟩
      rw [hperm.mem_iff, mem_cons, hrest, mem_cons]
      constructor
      · rintro (rfl | ⟨hc, hc'⟩)
        · exact ⟨.inl rfl, hnew⟩
        · exact ⟨.inr hc, hc'⟩
      · rintro ⟨hc | hc, hc'⟩
        · exact .inl hc
        · exact .inr ⟨hc, hc'⟩
    · have hsame : (freeLoop s (b :: bs)).2 = (freeLoop (s.addRef b (-1)) bs).2 := by
        simp only [freeLoop, if_neg hzero]
      rw [hsame]
      refine ⟨hnd, fun c => ?_⟩
      rw [hrest, mem_cons]
      refine ⟨fun hsorted => ⟨.inr hsorted.1, hsorted.2⟩, ?_⟩
      rintro ⟨hc | hc, hc'⟩
      · -- a block that keeps a reference is freed again later in the list
        subst hc
        refine ⟨?_, hc'⟩
        by_contra hout
        have hb' := hcount c
        rw [count_eq_zero_of_not_mem hout] at hb'
        exact hzero ⟨by omega, by simpa using hc'.1⟩
      · exact ⟨hc, hc'⟩

/-- `free_blocks` gives references back; the blocks that have none left join
the free list at either end. -/
theorem freeBlocks_spec (bs : List (Fin n))
    (hheld : ∀ b, (s.blocks b).isNull = false → (bs.count b : ℤ) ≤ (s.blocks b).refCnt) :
    Ensures (freeBlocks bs) s
      (fun _ t => (∃ first last, FreeListInv t (first ++ free ++ last)) ∧
        Recounted (fun b => -(bs.count b : ℤ)) s t)
      (fun _ _ => False) := by
  obtain ⟨hqueue, hcount⟩ := freeLoop_recounted s bs
  obtain ⟨hnd, hmem⟩ := freeLoop_sorted s bs hheld
  generalize hloop : freeLoop s bs = res at hqueue hcount hnd hmem
  obtain ⟨t, first, last⟩ := res
  simp only at hqueue hcount hnd hmem
  have hout (b : Fin n) (hb : b ∈ first ++ last) : b ∉ free := by
    obtain ⟨hin, hnull, href⟩ := (hmem b).mp hb
    intro hfree
    have hzero := ((h.mem_iff b).mp hfree).2
    have hpos := count_pos_iff.mpr hin
    omega
  obtain ⟨hfirst, hlast, hdisj⟩ := nodup_append.mp hnd
  have hnd₁ : (first ++ free).Nodup := nodup_append.mpr ⟨hfirst, h.represents.nodup,
    fun a ha b hb hab => hout a (mem_append_left _ ha) (hab ▸ hb)⟩
  have hnd₂ : (first ++ free ++ last).Nodup := by
    refine nodup_append.mpr ⟨hnd₁, hlast, fun a ha b hb hab => ?_⟩
    subst hab
    cases mem_append.mp ha with
    | inl hin => exact hdisj a hin a hb rfl
    | inr hin => exact hout a (mem_append_right _ hb) hin
  simp only [freeBlocks, ensures_bind, ensures_get, hloop, ensures_set, onQueue, ensures_zoom,
    hqueue]
  refine (prependN_spec h.represents hnd₁).mono ?_ (fun _ _ hfalse => hfalse)
  intro _ q hq
  refine (appendN_spec hq hnd₂).mono ?_ (fun _ _ hfalse => hfalse)
  intro _ q' hq'
  have hcount' : Recounted (fun b => -(bs.count b : ℤ)) s { t with freeBlockQueue := q' } :=
    ⟨hcount.refCnt, hcount.isNull, hcount.nullBlock, hcount.enableCaching⟩
  refine ⟨⟨first, last, h.recount hcount' hq' ?_ ?_⟩, hcount'⟩
  · intro b hb
    have hle := hheld b hb
    have hfree := h.mem_iff b
    have hsorted := hmem b
    rw [mem_append] at hsorted
    simp only [hb, true_and] at hfree hsorted
    refine ⟨?_, by omega⟩
    rw [mem_append, mem_append]
    constructor
    · rintro ((hin | hin) | hin)
      · have := (hsorted.mp (.inl hin)).2
        omega
      · have hzero := hfree.mp hin
        omega
      · have := (hsorted.mp (.inr hin)).2
        omega
    · intro hzero
      by_cases hin : b ∈ bs
      · rcases hsorted.mpr ⟨hin, by omega⟩ with hin' | hin'
        · exact .inl (.inl hin')
        · exact .inr hin'
      · rw [count_eq_zero_of_not_mem hin] at hzero
        exact .inl (.inr (hfree.mpr (by omega)))
  · intro hin
    have hnull := (h.null_iff s.nullBlock).mpr rfl
    have hbad : s.nullBlock ∉ first ++ last := fun hb => by
      rw [((hmem _).mp hb).2.1] at hnull
      cases hnull
    rw [mem_append, mem_append] at hin
    rw [mem_append] at hbad
    rcases hin with (hin | hin) | hin
    · exact hbad (.inl hin)
    · exact h.null_notMem hin
    · exact hbad (.inr hin)

theorem FreeListInv.reorder (hst : Recounted (fun _ => 0) s t)
    (hq : Represents t.freeBlockQueue free') (hperm : free'.Perm free) : FreeListInv t free' := by
  refine h.recount hst hq (fun b hb => ?_) (fun hin => h.null_notMem (hperm.mem_iff.mp hin))
  rw [Int.add_zero, hperm.mem_iff, h.mem_iff]
  exact ⟨⟨fun hin => hin.2, fun hzero => ⟨hb, hzero⟩⟩, h.nonneg b hb⟩

/-- Re-ageing reorders the free list. -/
theorem refreshBlock_spec (entry : Fin n × BlockHashWithGroupId) : Ensures (refreshBlock entry) s
      (fun _ t => (∃ free', free'.Perm free ∧ FreeListInv t free') ∧ Recounted (fun _ => 0) s t)
      (fun _ _ => False) := by
  simp only [refreshBlock, ensures_bind, ensures_get, ensures_onlyIf, onQueue, ensures_zoom]
  refine ⟨fun hfree => ?_, fun _ => ⟨⟨free, List.Perm.refl _, h⟩, (SameCounts.refl s).recounted⟩⟩
  have hb : entry.1 ∈ free := (h.mem_iff _).mpr ⟨hfree.2.1, hfree.1⟩
  have hout : entry.1 ∉ free.erase entry.1 :=
    fun hin => (h.represents.nodup.mem_erase_iff.mp hin).1 rfl
  refine (remove_spec h.represents hb).mono ?_ (fun _ _ hfalse => hfalse)
  intro _ q hq
  refine (append_spec hq hout).mono ?_ (fun _ _ hfalse => hfalse)
  intro _ q' hq'
  have hcount : Recounted (fun _ => 0) s { s with freeBlockQueue := q' } :=
    ⟨fun _ => (Int.add_zero _).symm, fun _ => rfl, rfl, rfl⟩
  have hperm : (free.erase entry.1 ++ [entry.1]).Perm free :=
    (perm_append_singleton _ _).trans (perm_cons_erase hb).symm
  exact ⟨⟨_, hperm, h.reorder hcount hq' hperm⟩, hcount⟩

theorem refreshCachedFreeBlocks_spec (entries : List (Fin n × BlockHashWithGroupId)) :
    Ensures (refreshCachedFreeBlocks entries) s
      (fun _ t => (∃ free', free'.Perm free ∧ FreeListInv t free') ∧ Recounted (fun _ => 0) s t)
      (fun _ _ => False) := by
  have hstart : (∃ free', free'.Perm free ∧ FreeListInv s free') ∧ Recounted (fun _ => 0) s s :=
    ⟨⟨free, List.Perm.refl _, h⟩, (SameCounts.refl s).recounted⟩
  simp only [refreshCachedFreeBlocks, ensures_bind, ensures_get, ensures_onlyIf]
  refine ⟨fun _ => ensures_forM _ _ ?_ s hstart, fun _ => hstart⟩
  rintro entry - t ⟨⟨free', hperm, ht⟩, hcount⟩
  refine (refreshBlock_spec ht entry).mono ?_ (fun _ _ hfalse => hfalse)
  rintro _ u ⟨⟨free'', hperm', hu⟩, hcount'⟩
  exact ⟨⟨free'', hperm'.trans hperm, hu⟩, by simpa only [Int.add_zero] using hcount.trans hcount'⟩
end

/-- A pool as `__init__` leaves it: every block but the null block is free, and
nothing is cached. -/
structure NewPool [NeZero n] (enableEvents : Bool) (s : BlockPool n) : Prop where
  free : FreeListInv s (List.finRange n).tail
  index : s.cachedBlockHashToBlock = .empty
  events : s.enableKvCacheEvents = enableEvents ∧ s.kvEventQueue = []
  refCnt : ∀ b, (s.blocks b).refCnt = 0
  blockHash : ∀ b, (s.blocks b).blockHash = none ∧ (s.blocks b).blockHashNumTokens = none
  byBlock : ∀ b, s.cachedBlockHashesByBlock b = none

/-- Start-up never fails and leaves all blocks but the null block free. -/
theorem initPool_spec [NeZero n] (enableCaching : Bool) (hashBlockSize : ℕ) (enableEvents : Bool) :
    ∃ s : BlockPool n, initPool n enableCaching hashBlockSize enableEvents = .ok s ∧
      NewPool enableEvents s := by
  obtain ⟨m, rfl⟩ := Nat.exists_eq_succ_of_ne_zero (NeZero.ne n)
  have hlist : List.finRange (m + 1) = 0 :: (List.finRange (m + 1)).tail := by
    rw [finRange_succ, tail_cons]
  have hinit := init_represents (List.finRange (m + 1)) (nodup_finRange _)
  rw [hlist] at hinit
  obtain ⟨r, q, hrun, rfl, hq⟩ := (popleft_spec hinit).exists_ok
  rw [← hlist] at hrun
  have hhead : (0 : Fin (m + 1)) ∉ (List.finRange (m + 1)).tail := by
    have hnd := nodup_finRange (m + 1)
    rw [hlist] at hnd
    exact (nodup_cons.mp hnd).1
  have hmem (b : Fin (m + 1)) : b ∈ (List.finRange (m + 1)).tail ↔ b ≠ 0 := by
    have hin := mem_finRange b
    rw [hlist, mem_cons] at hin
    exact ⟨fun hb h0 => hhead (h0 ▸ hb), hin.resolve_left⟩
  simp only [initPool, onQueue, zoom, EStateM.run] at hrun ⊢
  rw [hrun]
  refine ⟨_, rfl, ⟨hq, fun b => ?_, fun b => ?_, fun b _ => ?_⟩, rfl, ⟨rfl, rfl⟩, fun b => ?_,
    fun b => ?_, fun _ => rfl⟩
  all_goals
    by_cases hb : b = 0
    · simp [setBlock, hb, hmem]
    · simp [setBlock, hb, hmem]

theorem newPool_of_initPool [NeZero n] {enableCaching : Bool} {hashBlockSize : ℕ}
    {enableEvents : Bool}
    (h : initPool n enableCaching hashBlockSize enableEvents = .ok s) : NewPool enableEvents s := by
  obtain ⟨t, ht, hnew⟩ := initPool_spec (n := n) enableCaching hashBlockSize enableEvents
  rw [h] at ht
  cases ht
  exact hnew

end Vllm.PoolFreeList
