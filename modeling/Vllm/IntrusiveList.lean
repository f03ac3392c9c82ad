import Mathlib.Data.List.Chain
import Mathlib.Data.List.Nodup

/-!
Doubly linked lists whose links live in the nodes. A store of links is two
functions on an arbitrary node type; the nodes of a list are recovered from
the store by the predicate `Linked`, which asks every consecutive pair to
point at each other. Removal from the middle, insertion of a run of nodes
between two neighbours and removal of a run behind a node are the only
mutations, and each is described by what it does to the linked list and by
what it leaves alone.
-/
namespace Vllm.IntrusiveList

open List

structure Links (N : Type) where
  prev : N → Option N
  next : N → Option N

variable {N : Type}

namespace Links

def Adj (L : Links N) (x y : N) : Prop := L.next x = some y ∧ L.prev y = some x

def Linked (L : Links N) (xs : List N) : Prop := xs.IsChain L.Adj

def Detached (L : Links N) (x : N) : Prop := L.prev x = none ∧ L.next x = none

@[simp]
theorem linked_singleton (L : Links N) (x : N) : L.Linked [x] :=
  isChain_singleton x

theorem linked_cons_cons {L : Links N} {x y : N} {l : List N} :
    L.Linked (x :: y :: l) ↔ L.Adj x y ∧ L.Linked (y :: l) :=
  isChain_cons_cons

/-- A list is linked exactly when both parts and the joint between them are. -/
theorem linked_append_cons_cons {L : Links N} {u v : List N} {x y : N} :
    L.Linked (u ++ x :: y :: v) ↔ L.Linked (u ++ [x]) ∧ L.Adj x y ∧ L.Linked (y :: v) :=
  isChain_append_cons_cons

variable {L M : Links N} {xs : List N} {x : N}

/-- Only the forward links of all but the last node and the backward links of
all but the first one matter. -/
theorem Linked.congr (h : L.Linked xs) (hnext : ∀ x ∈ xs.dropLast, M.next x = L.next x)
    (hprev : ∀ x ∈ xs.tail, M.prev x = L.prev x) : M.Linked xs := by
  induction xs with
  | nil => exact isChain_nil
  | cons x l ih =>
    cases l with
    | nil => exact linked_singleton M x
    | cons y l =>
      rw [linked_cons_cons] at h ⊢
      simp only [dropLast_cons_cons, mem_cons, tail_cons] at hnext hprev
      refine ⟨⟨?_, ?_⟩, ih h.2 ?_ ?_⟩
      · rw [hnext x (.inl rfl)]
        exact h.1.1
      · rw [hprev y (.inl rfl)]
        exact h.1.2
      · exact fun z hz => hnext z (.inr hz)
      · exact fun z hz => hprev z (.inr hz)

theorem Linked.next_mem (h : L.Linked xs) (hx : x ∈ xs.dropLast) :
    ∃ y ∈ xs, L.next x = some y := by
  induction xs with
  | nil => exact absurd hx not_mem_nil
  | cons z l ih =>
    cases l with
    | nil => exact absurd hx not_mem_nil
    | cons y l =>
      rw [linked_cons_cons] at h
      rw [dropLast_cons_cons, mem_cons] at hx
      rcases hx with rfl | hx
      · exact ⟨y, by simp, h.1.1⟩
      · obtain ⟨w, hw, hnext⟩ := ih h.2 hx
        exact ⟨w, mem_cons_of_mem z hw, hnext⟩

/-- The list up to `x` does not read the forward link of `x` or any link of a
node outside it. -/
theorem Linked.congr_left {u : List N} (h : L.Linked (u ++ [x]))
    (hnext : ∀ y ∈ u, M.next y = L.next y) (hprev : ∀ y ∈ u ++ [x], M.prev y = L.prev y) :
    M.Linked (u ++ [x]) := by
  refine h.congr ?_ (fun y hy => hprev y (mem_of_mem_tail hy))
  rw [dropLast_concat]
  exact hnext

/-- The list from `x` on does not read the backward link of `x`. -/
theorem Linked.congr_right {v : List N} (h : L.Linked (x :: v))
    (hnext : ∀ y ∈ x :: v, M.next y = L.next y) (hprev : ∀ y ∈ v, M.prev y = L.prev y) :
    M.Linked (x :: v) :=
  h.congr (fun y hy => hnext y (dropLast_subset _ hy)) hprev

variable [DecidableEq N]

def setPrev (L : Links N) (x : N) (v : Option N) : Links N :=
  { L with prev := Function.update L.prev x v }

def setNext (L : Links N) (x : N) (v : Option N) : Links N :=
  { L with next := Function.update L.next x v }

def detach (L : Links N) (x : N) : Links N := (L.setPrev x none).setNext x none

variable {bs : List N} {p s : N} (L : Links N)

@[simp]
theorem setPrev_next (x : N) (v : Option N) : (L.setPrev x v).next = L.next := rfl

@[simp]
theorem setNext_prev (x : N) (v : Option N) : (L.setNext x v).prev = L.prev := rfl

theorem setPrev_prev (x y : N) (v : Option N) :
    (L.setPrev x v).prev y = if y = x then v else L.prev y := by
  simp [setPrev, Function.update_apply]

theorem setNext_next (x y : N) (v : Option N) :
    (L.setNext x v).next y = if y = x then v else L.next y := by
  simp [setNext, Function.update_apply]

@[simp]
theorem setPrev_prev_self (x : N) (v : Option N) : (L.setPrev x v).prev x = v := by simp [setPrev]

@[simp]
theorem setNext_next_self (x : N) (v : Option N) : (L.setNext x v).next x = v := by simp [setNext]

theorem setPrev_prev_of_ne {y : N} (h : y ≠ x) (L : Links N) (v : Option N) :
    (L.setPrev x v).prev y = L.prev y := by simp [setPrev, h]

theorem setNext_next_of_ne {y : N} (h : y ≠ x) (L : Links N) (v : Option N) :
    (L.setNext x v).next y = L.next y := by simp [setNext, h]

def detachAll (L : Links N) : List N → Links N
  | [] => L
  | b :: bs => detachAll (L.detach b) bs

theorem detach_prev (x y : N) : (L.detach x).prev y = if y = x then none else L.prev y := by
  rw [detach, setNext_prev, setPrev_prev]

theorem detach_next (x y : N) : (L.detach x).next y = if y = x then none else L.next y := by
  rw [detach, setNext_next, setPrev_next]

theorem detachAll_prev (bs : List N) (y : N) :
    (L.detachAll bs).prev y = if y ∈ bs then none else L.prev y := by
  induction bs generalizing L with
  | nil => simp [detachAll]
  | cons b bs ih =>
    rw [detachAll, ih, detach_prev]
    by_cases hb : y = b <;> by_cases hbs : y ∈ bs <;> simp [hb, hbs]

theorem detachAll_next (bs : List N) (y : N) :
    (L.detachAll bs).next y = if y ∈ bs then none else L.next y := by
  induction bs generalizing L with
  | nil => simp [detachAll]
  | cons b bs ih =>
    rw [detachAll, ih, detach_next]
    by_cases hb : y = b <;> by_cases hbs : y ∈ bs <;> simp [hb, hbs]

def removeRun (L : Links N) (p s : N) (bs : List N) : Links N :=
  ((L.detachAll bs).setNext p (some s)).setPrev s (some p)

theorem removeRun_prev (p s : N) (bs : List N) (y : N) : (L.removeRun p s bs).prev y =
      if y = s then some p else if y ∈ bs then none else L.prev y := by
  rw [removeRun, setPrev_prev, setNext_prev, detachAll_prev]

theorem removeRun_next (p s : N) (bs : List N) (y : N) : (L.removeRun p s bs).next y =
      if y = p then some s else if y ∈ bs then none else L.next y := by
  rw [removeRun, setPrev_next, setNext_next, detachAll_next]

/-- Taking a run out links its neighbours and leaves the rest linked. -/
theorem removeRun_linked {L : Links N} {u v : List N} (h : L.Linked (u ++ (p :: bs ++ s :: v)))
    (hnd : (u ++ (p :: bs ++ s :: v)).Nodup) : (L.removeRun p s bs).Linked (u ++ p :: s :: v) := by
  have hleft : L.Linked (u ++ [p]) := (isChain_split.mp h).1
  have hright : L.Linked (s :: v) := by
    rw [← append_assoc] at h
    exact (isChain_split.mp h).2
  obtain ⟨-, hrest, hu⟩ := nodup_append.mp hnd
  obtain ⟨hrun, hsv, hbs⟩ := nodup_append.mp hrest
  have hps : p ≠ s := hbs p mem_cons_self s mem_cons_self
  have hub : ∀ y ∈ u, y ∉ bs := fun y hy hmem =>
    hu y hy y (mem_append_left _ (mem_cons_of_mem p hmem)) rfl
  rw [linked_append_cons_cons]
  refine ⟨hleft.congr_left ?_ ?_, ⟨?_, ?_⟩, hright.congr_right ?_ ?_⟩
  · intro y hy
    have hyp : y ≠ p := hu y hy p (mem_append_left _ mem_cons_self)
    rw [removeRun_next, if_neg hyp, if_neg (hub y hy)]
  · intro y hy
    rcases mem_append.mp hy with hy | hy
    · have hys : y ≠ s := hu y hy s (mem_append_right _ mem_cons_self)
      rw [removeRun_prev, if_neg hys, if_neg (hub y hy)]
    · rw [mem_singleton.mp hy, removeRun_prev, if_neg hps, if_neg (nodup_cons.mp hrun).1]
  · rw [removeRun_next, if_pos rfl]
  · rw [removeRun_prev, if_pos rfl]
  · intro y hy
    have hyp : y ≠ p := fun heq => hbs p mem_cons_self y hy heq.symm
    have hyb : y ∉ bs := fun hmem => hbs y (mem_cons_of_mem p hmem) y hy rfl
    rw [removeRun_next, if_neg hyp, if_neg hyb]
  · intro y hy
    have hys : y ≠ s := by
      rintro rfl
      exact (nodup_cons.mp hsv).1 hy
    have hyb : y ∉ bs := fun hmem =>
      hbs y (mem_cons_of_mem p hmem) y (mem_cons_of_mem s hy) rfl
    rw [removeRun_prev, if_neg hys, if_neg hyb]

def unlink (L : Links N) (p x s : N) : Links N :=
  ((L.setNext p (some s)).setPrev s (some p)).detach x

/-- Taking one node out is the removal of a run of one. -/
theorem unlink_eq_removeRun (hp : p ≠ x) (hs : s ≠ x) (L : Links N) :
    L.unlink p x s = L.removeRun p s [x] := by
  have hprev : (L.unlink p x s).prev = (L.removeRun p s [x]).prev := by
    funext y
    rw [unlink, detach_prev, setPrev_prev, setNext_prev, removeRun_prev]
    by_cases hy : y = x <;> by_cases hys : y = s <;> simp_all
  have hnext : (L.unlink p x s).next = (L.removeRun p s [x]).next := by
    funext y
    rw [unlink, detach_next, setPrev_next, setNext_next, removeRun_next]
    by_cases hy : y = x <;> by_cases hyp : y = p <;> simp_all
  exact congrArg₂ Links.mk hprev hnext

def linkChain (L : Links N) (last : N) : List N → Links N × N
  | [] => (L, last)
  | b :: bs => linkChain ((L.setPrev b (some last)).setNext last (some b)) b bs

theorem linkChain_snd (last : N) (bs : List N) :
    (L.linkChain last bs).2 = (last :: bs).getLast (List.cons_ne_nil last bs) := by
  induction bs generalizing L last with
  | nil => rfl
  | cons b bs ih =>
    rw [linkChain, ih, getLast_cons (cons_ne_nil b bs)]

theorem linkChain_prev_of_notMem {last : N} (hx : x ∉ bs) (L : Links N) :
    (L.linkChain last bs).1.prev x = L.prev x := by
  induction bs generalizing L last with
  | nil => rfl
  | cons b bs ih =>
    rw [mem_cons, not_or] at hx
    rw [linkChain, ih hx.2, setNext_prev, setPrev_prev_of_ne hx.1]

theorem linkChain_next_of_notMem {last : N} (hx : x ∉ last :: bs) (L : Links N) :
    (L.linkChain last bs).1.next x = L.next x := by
  induction bs generalizing L last with
  | nil => rfl
  | cons b bs ih =>
    rw [mem_cons, not_or] at hx
    rw [linkChain, ih hx.2, setNext_next_of_ne hx.1, setPrev_next]

/-- Chaining links a run of distinct nodes, whatever the links were before. -/
theorem linkChain_linked {last : N} (hnd : (last :: bs).Nodup) (L : Links N) :
    (L.linkChain last bs).1.Linked (last :: bs) := by
  induction bs generalizing L last with
  | nil => exact linked_singleton _ last
  | cons b bs ih =>
    obtain ⟨hlast, hnd⟩ := nodup_cons.mp hnd
    rw [linkChain, linked_cons_cons]
    refine ⟨⟨?_, ?_⟩, ih hnd _⟩
    · rw [linkChain_next_of_notMem hlast, setNext_next_self]
    · rw [linkChain_prev_of_notMem (nodup_cons.mp hnd).1, setNext_prev, setPrev_prev_self]

def insertRun (L : Links N) (p s : N) (bs : List N) : Links N :=
  ((L.linkChain p bs).1.setNext (L.linkChain p bs).2 (some s)).setPrev s
    (some (L.linkChain p bs).2)

theorem insertRun_prev_of_notMem (hs : x ≠ s) (hx : x ∉ bs) (L : Links N) :
    (L.insertRun p s bs).prev x = L.prev x := by
  rw [insertRun, setPrev_prev_of_ne hs, setNext_prev, linkChain_prev_of_notMem hx]

theorem insertRun_next_of_notMem (hx : x ∉ p :: bs) (L : Links N) :
    (L.insertRun p s bs).next x = L.next x := by
  have hlast : x ≠ (L.linkChain p bs).2 := by
    rw [linkChain_snd]
    rintro rfl
    exact hx (getLast_mem _)
  rw [insertRun, setPrev_next, setNext_next_of_ne hlast, linkChain_next_of_notMem hx]

theorem insertRun_linked_run (hnd : (p :: bs).Nodup) (hs : s ∉ bs) (L : Links N) :
    (L.insertRun p s bs).Linked (p :: bs) := by
  refine (linkChain_linked hnd L).congr ?_ ?_
  · intro x hx
    have hlast : x ≠ (L.linkChain p bs).2 := by
      rw [linkChain_snd]
      rintro rfl
      have hsplit := dropLast_append_getLast (cons_ne_nil p bs)
      rw [← hsplit, nodup_append] at hnd
      exact hnd.2.2 _ hx _ (mem_singleton_self _) rfl
    rw [insertRun, setPrev_next, setNext_next_of_ne hlast]
  · intro x hx
    have hxs : x ≠ s := by
      rintro rfl
      exact hs hx
    rw [insertRun, setPrev_prev_of_ne hxs, setNext_prev]

/-- The run and both its neighbours are linked, whatever was there before. -/
theorem insertRun_linked_closed (hnd : (p :: bs ++ [s]).Nodup) (L : Links N) :
    (L.insertRun p s bs).Linked (p :: bs ++ [s]) := by
  obtain ⟨hrun, -, hs⟩ := nodup_append.mp hnd
  have hsbs : s ∉ bs := fun hmem =>
    hs s (mem_cons_of_mem p hmem) s (mem_singleton_self s) rfl
  have hcut : p :: bs = (p :: bs).dropLast ++ [(L.linkChain p bs).2] := by
    rw [linkChain_snd]
    exact (dropLast_append_getLast (cons_ne_nil p bs)).symm
  have hlinked := insertRun_linked_run hrun hsbs L
  rw [hcut] at hlinked ⊢
  rw [append_assoc, singleton_append, linked_append_cons_cons]
  refine ⟨hlinked, ⟨?_, ?_⟩, linked_singleton _ s⟩
  · rw [insertRun, setPrev_next, setNext_next_self]
  · rw [insertRun, setPrev_prev_self]

/-- Putting a run between two neighbours leaves the whole list linked. -/
theorem insertRun_linked {L : Links N} {u v : List N} (h : L.Linked (u ++ p :: s :: v))
    (hnd : (u ++ (p :: bs ++ s :: v)).Nodup) :
    (L.insertRun p s bs).Linked (u ++ (p :: bs ++ s :: v)) := by
  obtain ⟨hleft, -, hright⟩ := linked_append_cons_cons.mp h
  obtain ⟨-, hrest, hu⟩ := nodup_append.mp hnd
  obtain ⟨hrun, hsv, hbs⟩ := nodup_append.mp hrest
  have hp : p ∉ bs := (nodup_cons.mp hrun).1
  have hps : p ≠ s := hbs p mem_cons_self s mem_cons_self
  have hclosed : (L.insertRun p s bs).Linked (p :: bs ++ [s]) := by
    refine insertRun_linked_closed (hrest.sublist (List.Sublist.append_left ?_ _)) L
    exact singleton_sublist.mpr mem_cons_self
  have hfront : (L.insertRun p s bs).Linked (u ++ [p]) := by
    refine hleft.congr_left ?_ ?_
    · intro y hy
      refine insertRun_next_of_notMem (fun hmem => ?_) L
      exact hu y hy y (mem_append_left _ hmem) rfl
    · intro y hy
      rcases mem_append.mp hy with hy | hy
      · refine insertRun_prev_of_notMem ?_ (fun hmem => ?_) L
        · exact hu y hy s (mem_append_right _ mem_cons_self)
        · exact hu y hy y (mem_append_left _ (mem_cons_of_mem p hmem)) rfl
      · rw [mem_singleton.mp hy]
        exact insertRun_prev_of_notMem hps hp L
  have hback : (L.insertRun p s bs).Linked (s :: v) := by
    refine hright.congr_right ?_ ?_
    · intro y hy
      exact insertRun_next_of_notMem (fun hmem => hbs y hmem y hy rfl) L
    · intro y hy
      refine insertRun_prev_of_notMem ?_ (fun hmem => ?_) L
      · rintro rfl
        exact (nodup_cons.mp hsv).1 hy
      · exact hbs y (mem_cons_of_mem p hmem) y (mem_cons_of_mem s hy) rfl
  have hrun' : (L.insertRun p s bs).Linked (p :: bs ++ s :: v) :=
    isChain_split.mpr ⟨hclosed, hback⟩
  exact isChain_split.mpr ⟨hfront, hrun'⟩

/-! ### Nodes that no forward link names -/

/-- No walk along the forward links gets to `x`. -/
def Unnamed (L : Links N) (x : N) : Prop := ∀ y, L.next y ≠ some x

variable {L : Links N} {x : N}

variable (h : L.Unnamed x)
include h

theorem Unnamed.setPrev (y : N) (v : Option N) : (L.setPrev y v).Unnamed x := h

theorem Unnamed.setNext (y : N) {v : Option N} (hv : v ≠ some x) : (L.setNext y v).Unnamed x := by
  intro z
  rw [setNext_next]
  split_ifs
  · exact hv
  · exact h z

theorem Unnamed.detach (y : N) : (L.detach y).Unnamed x :=
  (h.setPrev y none).setNext y (Option.some_ne_none x).symm

theorem Unnamed.unlink (p y : N) (hs : s ≠ x) : (L.unlink p y s).Unnamed x :=
  ((h.setNext p (fun hsx => hs (Option.some.inj hsx))).setPrev s (some p)).detach y

theorem Unnamed.linkChain (last : N) (hbs : x ∉ bs) :
    (L.linkChain last bs).1.Unnamed x := by
  induction bs generalizing L last with
  | nil => exact h
  | cons b bs ih =>
    rw [mem_cons, not_or] at hbs
    refine ih ?_ b hbs.2
    exact (h.setPrev b (some last)).setNext last (fun hb => hbs.1 (Option.some.inj hb).symm)

theorem Unnamed.insertRun (p : N) (hs : s ≠ x) (hbs : x ∉ bs) :
    (L.insertRun p s bs).Unnamed x :=
  ((h.linkChain p hbs).setNext _ (fun hsx => hs (Option.some.inj hsx))).setPrev s _

end Links

end Vllm.IntrusiveList
