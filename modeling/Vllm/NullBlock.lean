import Vllm.PoolFreeList

/-!
The null block stands in the block tables for the pages that a request does not
keep. The free queue never hands it out: no forward link names it, and no
operation of the pool adds such a link, whatever the reference counts are.
-/
namespace Vllm.NullBlock

open Outcome IntrusiveList FreeBlockQueue BlockHashMap Pool BlockPool PoolSteps PoolFreeList List

variable {n : ℕ}

/-- No walk along the free queue gets to `b`. -/
def Withheld (b : Fin n) (q : FreeKVCacheBlockQueue n) : Prop := q.links.Unnamed (.block b)

section
variable {b : Fin n} {q : FreeKVCacheBlockQueue n}

/-- A block that no link leads to is not popped. -/
theorem popLoop_withheld (k : ℕ) {curr : Option (Node n)} (hq : Withheld b q)
    (hcurr : curr ≠ some (.block b)) :
    Ensures (popLoop k curr) q
      (fun r t => b ∉ r.1 ∧ r.2 ≠ some (.block b) ∧ Withheld b t) (fun _ t => Withheld b t) := by
  induction k generalizing curr q with
  | zero => exact ⟨not_mem_nil, hcurr, hq⟩
  | succ k ih =>
    match curr with
    | some (.block c) =>
      simp only [popLoop, ensures_bind, ensures_get, ensures_set]
      refine (ih (q := { q with links := q.links.detach (.block c) }) (hq.detach (.block c))
        (hq (.block c))).imp ?_
      rintro r t ⟨hmem, hr, ht⟩
      have hbc : b ≠ c := fun h => hcurr (h ▸ rfl)
      exact ⟨not_mem_cons_of_ne_of_not_mem hbc hmem, hr, ht⟩
    | none => exact hq
    | some .fakeHead => exact hq
    | some .fakeTail => exact hq

theorem popleftN_withheld (k : ℕ) (hq : Withheld b q) :
    Ensures (popleftN k) q (fun bs t => b ∉ bs ∧ Withheld b t) (fun _ t => Withheld b t) := by
  rw [popleftN, ensures_ite]
  refine ⟨fun _ => ⟨not_mem_nil, hq⟩, fun _ => ?_⟩
  simp only [ensures_bind, ensures_get, ensures_check, ensures_set]
  refine ⟨fun _ => ?_, fun _ => hq⟩
  refine (popLoop_withheld (q := { q with numFreeBlocks := q.numFreeBlocks - k }) k hq
    (hq .fakeHead)).imp ?_
  rintro ⟨bs, curr⟩ t ⟨hmem, hcurr, ht⟩
  cases curr with
  | none => exact ⟨hmem, ht⟩
  | some curr => exact ⟨hmem, (Links.Unnamed.setNext ht .fakeHead hcurr).setPrev _ _⟩

theorem remove_withheld (c : Fin n) (hq : Withheld b q) :
    Ensures (remove c) q (fun _ t => Withheld b t) (fun _ t => Withheld b t) := by
  rw [remove, ensures_bind, ensures_get]
  split
  · next p s _ hs =>
    have hsb : s ≠ .block b := fun h => hq (.block c) (h ▸ hs)
    exact Links.Unnamed.unlink hq p (.block c) hsb
  · exact hq

theorem append_withheld {c : Fin n} (hc : c ≠ b) (hq : Withheld b q) :
    Ensures (append c) q (fun _ t => Withheld b t) (fun _ t => Withheld b t) := by
  rw [append, ensures_bind, ensures_get]
  split
  · exact hq
  · next last _ =>
    have hcb : some (Node.block c) ≠ some (.block b) := fun h => hc (by simpa using h)
    have hlast := (Links.Unnamed.setNext hq last hcb).setPrev (.block c) (some last)
    exact (hlast.setNext (.block c) (by simp)).setPrev _ _

theorem prependN_withheld {bs : List (Fin n)} (hbs : b ∉ bs) (hq : Withheld b q) :
    Ensures (prependN bs) q (fun _ t => Withheld b t) (fun _ t => Withheld b t) := by
  rw [prependN, ensures_ite]
  refine ⟨fun _ => hq, fun _ => ?_⟩
  rw [ensures_bind, ensures_get]
  split
  · exact hq
  · next first hfirst =>
    have hne : first ≠ .block b := fun h => hq .fakeHead (h ▸ hfirst)
    exact Links.Unnamed.insertRun hq .fakeHead hne (by simpa using hbs)

theorem appendN_withheld {bs : List (Fin n)} (hbs : b ∉ bs) (hq : Withheld b q) :
    Ensures (appendN bs) q (fun _ t => Withheld b t) (fun _ t => Withheld b t) := by
  rw [appendN, ensures_ite]
  refine ⟨fun _ => hq, fun _ => ?_⟩
  rw [ensures_bind, ensures_get]
  split
  · exact hq
  · next last _ => exact Links.Unnamed.insertRun hq last (by simp) (by simpa using hbs)
end

/-! ### The pool -/

/-- The null block is the one that is marked, and it is never free. -/
structure NullApart (p : BlockPool n) : Prop where
  marked : ∀ b, (p.blocks b).isNull = true ↔ b = p.nullBlock
  withheld : Withheld p.nullBlock p.freeBlockQueue

/-- The pool `q` has the null block of `p`, still apart. -/
def NullKept (p q : BlockPool n) : Prop :=
  NullApart p → NullApart q ∧ q.nullBlock = p.nullBlock

instance : IsPreorder (BlockPool n) NullKept where
  refl _ h := ⟨h, rfl⟩
  trans _ _ _ h h' hp := ⟨(h' (h hp).1).1, ((h' (h hp).1).2).trans (h hp).2⟩

/-- Only the mark, the field and the queue matter. -/
theorem nullKept_of {p q : BlockPool n} (hnull : q.nullBlock = p.nullBlock)
    (hmark : ∀ b, (q.blocks b).isNull = (p.blocks b).isNull)
    (hqueue : Withheld p.nullBlock p.freeBlockQueue → Withheld p.nullBlock q.freeBlockQueue) :
    NullKept p q := by
  intro hp
  refine ⟨⟨fun b => ?_, ?_⟩, hnull⟩
  · rw [hmark, hp.marked, hnull]
  · rw [hnull]
    exact hqueue hp.withheld

theorem nullKept_of_sameCounts {p q : BlockPool n} (h : SameCounts p q) : NullKept p q :=
  nullKept_of h.nullBlock h.isNull fun hp => h.queue ▸ hp

theorem addRef_nullKept (p : BlockPool n) (b : Fin n) (d : ℤ) : NullKept p (p.addRef b d) :=
  nullKept_of rfl (fun c => addRef_isNull p b c d) id

variable {p : BlockPool n} {free : List (Fin n)}

theorem onQueue_nullKept {α : Type} {op : QueueM n α}
    (h : Withheld p.nullBlock p.freeBlockQueue → Ensures op p.freeBlockQueue
      (fun _ t => Withheld p.nullBlock t) (fun _ t => Withheld p.nullBlock t)) :
    Ensures (onQueue op) p (fun _ t => NullKept p t) (fun _ t => NullKept p t) := by
  rw [onQueue, ensures_zoom]
  by_cases hp : Withheld p.nullBlock p.freeBlockQueue
  · have hkept (q : FreeKVCacheBlockQueue n) (hq : Withheld p.nullBlock q) :
        NullKept p { p with freeBlockQueue := q } := nullKept_of rfl (fun _ => rfl) fun _ => hq
    exact (h hp).mono (fun _ t ht => hkept t ht) (fun _ t ht => hkept t ht)
  · exact Ensures.of_forall (fun _ _ hapart => absurd hapart.withheld hp)
      fun _ _ hapart => absurd hapart.withheld hp

theorem touch_nullKept (blocks : List (Fin n)) : Within NullKept (touch blocks) := by
  refine within_forM _ _ fun b _ => within_get.bind fun s => ?_
  refine (within_onlyIf _ fun p => ?_).bind fun _ => ?_
  · exact onQueue_nullKept fun hp => remove_withheld b hp
  · exact within_modify fun t => addRef_nullKept t b 1

theorem claimBlock_nullKept (b : Fin n) : Within NullKept (claimBlock b) := by
  refine Within.bind (within_modify fun s => ?_) fun _ => ?_
  · split_ifs
    · exact nullKept_of_sameCounts
        (maybeEvictCachedBlock_steps (P := fun _ _ => True) s b).sameCounts
    · exact refl_of NullKept s
  · refine within_get_bind fun s => ?_
    simp only [ensures_bind, ensures_check, ensures_set]
    exact ⟨fun _ => addRef_nullKept s b 1, fun _ => refl_of NullKept s⟩

theorem getNewBlocks_nullKept (k : ℕ) : Within NullKept (getNewBlocks k : PoolM n _) := by
  refine within_get.bind fun s => (within_check _ _).bind fun _ => ?_
  refine Within.bind (fun p => onQueue_nullKept fun hp => ?_) fun ret => ?_
  · exact (popleftN_withheld k hp).imp (fun _ _ h => h.2)
  · exact (within_forM _ _ fun b _ => claimBlock_nullKept b).bind fun _ => within_pure _

/-- The null block is never handed out. -/
theorem getNewBlocks_null_notMem (hp : NullApart p) (k : ℕ) :
    Ensures (getNewBlocks k) p (fun bs _ => p.nullBlock ∉ bs) (fun _ _ => True) := by
  simp only [getNewBlocks, ensures_bind, ensures_get, ensures_check]
  refine ⟨fun _ => ?_, fun _ => trivial⟩
  rw [onQueue, ensures_zoom]
  refine (popleftN_withheld k hp.withheld).weaken (fun bs t hbs => ?_)
  exact Ensures.of_forall (fun _ _ => hbs.1) fun _ _ => trivial

/-- The loop of `free_blocks` sorts no marked block. -/
theorem freeLoop_unmarked (s : BlockPool n) (bs : List (Fin n)) :
    ∀ b ∈ (freeLoop s bs).2.1 ++ (freeLoop s bs).2.2, (s.blocks b).isNull = false := by
  induction bs generalizing s with
  | nil => simp [freeLoop]
  | cons c bs ih =>
    have hrest : ∀ b ∈ (freeLoop (s.addRef c (-1)) bs).2.1 ++ (freeLoop (s.addRef c (-1)) bs).2.2,
        (s.blocks b).isNull = false := fun b hb => by simpa using ih (s.addRef c (-1)) b hb
    intro b hb
    simp only [freeLoop] at hb
    split_ifs at hb with hzero hhash
    · rcases mem_cons.mp hb with rfl | hb
      · simpa using hzero.2
      · exact hrest b hb
    · rcases mem_cons.mp (perm_middle.mem_iff.mp hb) with rfl | hb
      · simpa using hzero.2
      · exact hrest b hb
    · exact hrest b hb

/-- Freed blocks join the queue unless they are null. -/
theorem freeBlocks_nullKept (bs : List (Fin n)) : Within NullKept (freeBlocks bs) := by
  refine within_get_bind fun s => ?_
  by_cases hs : NullApart s
  · have hloop := freeLoop_recounted s bs
    have hunmarked := freeLoop_unmarked s bs
    have hfree : NullKept s (freeLoop s bs).1 :=
      nullKept_of hloop.2.nullBlock hloop.2.isNull fun hp => hloop.1 ▸ hp
    have hnull : s.nullBlock ∉ (freeLoop s bs).2.1 ++ (freeLoop s bs).2.2 := by
      intro hmem
      have hmark := (hs.marked s.nullBlock).mpr rfl
      rw [hunmarked _ hmem] at hmark
      exact Bool.false_ne_true hmark
    rw [mem_append, not_or] at hnull
    refine Ensures.bind_trans hfree fun _ t ht => ?_
    have htnull := (ht hs).2
    refine Ensures.bind_trans (onQueue_nullKept fun hp => ?_) fun _ u hu =>
      onQueue_nullKept fun hp => ?_
    · exact prependN_withheld (htnull ▸ hnull.1) hp
    · have hunull := (hu (ht hs).1).2.trans htnull
      exact appendN_withheld (hunull ▸ hnull.2) hp
  · exact Ensures.of_forall (fun _ _ h => absurd h hs) fun _ _ h => absurd h hs

theorem refreshBlock_nullKept (entry : Fin n × BlockHashWithGroupId) :
    Within NullKept (refreshBlock entry) := by
  refine within_get_bind fun s => ?_
  by_cases hs : NullApart s
  · rw [ensures_onlyIf]
    refine ⟨fun hfree => ?_, fun _ => refl_of NullKept s⟩
    have hne : entry.1 ≠ s.nullBlock := by
      intro h
      have hmark := (hs.marked entry.1).mpr h
      rw [hfree.2.1] at hmark
      exact Bool.false_ne_true hmark
    refine Ensures.bind_trans (onQueue_nullKept fun hp => remove_withheld _ hp) fun _ t ht => ?_
    exact onQueue_nullKept fun hp => append_withheld ((ht hs).2 ▸ hne) hp
  · exact Ensures.of_forall (fun _ _ h => absurd h hs) fun _ _ h => absurd h hs

theorem refreshCachedFreeBlocks_nullKept (entries : List (Fin n × BlockHashWithGroupId)) :
    Within NullKept (refreshCachedFreeBlocks entries) :=
  within_get.bind fun _ => within_onlyIf _ (within_forM _ _ fun e _ => refreshBlock_nullKept e)

theorem withheld_of_represents {q : FreeKVCacheBlockQueue n} (h : Represents q free) {b : Fin n}
    (hb : b ∉ free) : Withheld b q := by
  intro x hx
  have hmem : x ∈ (nodes free).dropLast := by
    cases x with
    | fakeHead => simp [nodes, dropLast_cons_of_ne_nil]
    | fakeTail => simp [h.tail_next] at hx
    | block c =>
      have hc : c ∈ free := by
        by_contra hc
        simp [(h.detached c hc).2] at hx
      rw [nodes, ← cons_append, dropLast_concat]
      exact mem_cons_of_mem _ (mem_map_block.mpr hc)
  obtain ⟨y, hy, hnext⟩ := h.linked.next_mem hmem
  have hyb : y = .block b := Option.some.inj (hnext.symm.trans hx)
  exact hb (block_mem_nodes.mp (hyb ▸ hy))

/-- A sound free list keeps the null block apart. -/
theorem nullApart_of_freeList (h : FreeListInv p free) : NullApart p :=
  ⟨h.null_iff, withheld_of_represents h.represents h.null_notMem⟩

end Vllm.NullBlock
