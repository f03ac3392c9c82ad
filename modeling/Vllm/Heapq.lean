import Mathlib.Data.List.Perm.Basic

/-!
Binary heaps on lists, as the standard library of the source keeps them. Moving
an item past another one is a swap, so whatever the comparison says, every
operation permutes the items; a comparison that has changed since the items were
pushed can misplace them but not lose them.
-/
namespace Vllm.Heapq

open List

variable {α : Type}

def swap (heap : List α) (i j : ℕ) : List α :=
  match heap[i]?, heap[j]? with
  | some a, some b => (heap.set i b).set j a
  | _, _ => heap

section
variable (lt : α → α → Bool)

/-- `_siftdown`: move the item at `pos` up to `startPos` at most. Its position
shrinks, so it is fuel enough. -/
def siftDown (startPos : ℕ) : ℕ → List α → ℕ → List α
  | 0, heap, _ => heap
  | fuel + 1, heap, pos =>
    if startPos < pos then
      let parentPos := (pos - 1) / 2
      match heap[pos]?, heap[parentPos]? with
      | some newItem, some parent =>
        if lt newItem parent then siftDown startPos fuel (swap heap pos parentPos) parentPos
        else heap
      | _, _ => heap
    else
      heap

def smallerChild (heap : List α) (pos : ℕ) : ℕ :=
  let childPos := 2 * pos + 1
  match heap[childPos]?, heap[childPos + 1]? with
  | some child, some right => if lt child right then childPos else childPos + 1
  | _, _ => childPos

/-- The first loop of `_siftup`: move the item at `pos` down to a leaf. -/
def sinkToLeaf : ℕ → List α → ℕ → List α × ℕ
  | 0, heap, pos => (heap, pos)
  | fuel + 1, heap, pos =>
    if 2 * pos + 1 < heap.length then
      let childPos := smallerChild lt heap pos
      sinkToLeaf fuel (swap heap pos childPos) childPos
    else
      (heap, pos)

def siftUp (heap : List α) (pos : ℕ) : List α :=
  let (heap, leaf) := sinkToLeaf lt heap.length heap pos
  siftDown lt pos leaf heap leaf

def heappush (heap : List α) (item : α) : List α :=
  siftDown lt 0 heap.length (heap ++ [item]) heap.length

def heappop (heap : List α) : Option (α × List α) :=
  match heap.getLast?, heap.dropLast with
  | none, _ => none
  | some last, [] => some (last, [])
  | some last, first :: rest => some (first, siftUp lt (last :: rest) 0)

def heapify (heap : List α) : List α :=
  (List.range (heap.length / 2)).reverse.foldl (siftUp lt) heap

def popAll : ℕ → List α → List α
  | 0, _ => []
  | fuel + 1, heap =>
    match heappop lt heap with
    | none => []
    | some (item, rest) => item :: popAll fuel rest
end

theorem swap_perm (heap : List α) (i j : ℕ) : (swap heap i j).Perm heap := by
  unfold swap
  split
  · next a b hi hj =>
    obtain ⟨hilt, rfl⟩ := List.getElem?_eq_some_iff.mp hi
    obtain ⟨hjlt, rfl⟩ := List.getElem?_eq_some_iff.mp hj
    exact set_set_perm hilt hjlt
  · exact List.Perm.refl _

variable (lt : α → α → Bool)

/-- Sifting only exchanges items, so nothing is lost or doubled. -/
theorem siftDown_perm (startPos fuel : ℕ) (heap : List α) (pos : ℕ) :
    (siftDown lt startPos fuel heap pos).Perm heap := by
  induction fuel generalizing heap pos with
  | zero => exact List.Perm.refl _
  | succ fuel ih =>
    unfold siftDown
    split
    · dsimp only
      split
      · split
        · exact (ih _ _).trans (swap_perm _ _ _)
        · exact List.Perm.refl _
      · exact List.Perm.refl _
    · exact List.Perm.refl _

theorem sinkToLeaf_perm (fuel : ℕ) (heap : List α) (pos : ℕ) :
    (sinkToLeaf lt fuel heap pos).1.Perm heap := by
  induction fuel generalizing heap pos with
  | zero => exact List.Perm.refl _
  | succ fuel ih =>
    unfold sinkToLeaf
    split
    · exact (ih _ _).trans (swap_perm _ _ _)
    · exact List.Perm.refl _

theorem siftUp_perm (heap : List α) (pos : ℕ) : (siftUp lt heap pos).Perm heap :=
  (siftDown_perm lt _ _ _ _).trans (sinkToLeaf_perm lt _ _ _)

/-- A push adds the item to those in the heap. -/
theorem heappush_perm (heap : List α) (item : α) : (heappush lt heap item).Perm (item :: heap) :=
  (siftDown_perm lt _ _ _ _).trans (perm_append_singleton item heap)

/-- A pop takes one item out and keeps the others. -/
theorem heappop_perm {heap rest : List α} {item : α} (h : heappop lt heap = some (item, rest)) :
    (item :: rest).Perm heap := by
  unfold heappop at h
  split at h
  · exact absurd h (by simp)
  · next last hlast hdrop =>
    obtain ⟨rfl, rfl⟩ := by simpa using h
    rw [← dropLast_append_getLast? _ hlast, hdrop, nil_append]
  · next last first tail hlast hdrop =>
    simp only [Option.some.injEq, Prod.mk.injEq] at h
    obtain ⟨rfl, rfl⟩ := h
    rw [← dropLast_append_getLast? _ hlast, hdrop, cons_append]
    apply List.Perm.cons
    exact (siftUp_perm lt _ _).trans (perm_append_singleton last tail).symm

theorem head?_of_heappop {heap rest : List α} {item : α}
    (h : heappop lt heap = some (item, rest)) : heap.head? = some item := by
  unfold heappop at h
  split at h
  · exact absurd h (by simp)
  · next last hlast hdrop =>
    simp only [Option.some.injEq, Prod.mk.injEq] at h
    rw [← dropLast_append_getLast? last hlast, hdrop, ← h.1]
    rfl
  · next last first rest' hlast hdrop =>
    simp only [Option.some.injEq, Prod.mk.injEq] at h
    rw [← dropLast_append_getLast? last hlast, hdrop, ← h.1]
    rfl

theorem heappop_eq_none_iff {heap : List α} : heappop lt heap = none ↔ heap = [] := by
  constructor
  · intro h
    unfold heappop at h
    split at h
    · next hlast => simpa using hlast
    · exact absurd h (by simp)
    · exact absurd h (by simp)
  · intro h
    subst h
    rfl

/-- Rebuilding the heap keeps its items. -/
theorem heapify_perm (heap : List α) : (heapify lt heap).Perm heap := by
  unfold heapify
  generalize (List.range (heap.length / 2)).reverse = positions
  induction positions generalizing heap with
  | nil => exact List.Perm.refl _
  | cons pos positions ih => exact (ih _).trans (siftUp_perm lt heap pos)

/-- Every item is popped once. -/
theorem popAll_perm (fuel : ℕ) (heap : List α) (hfuel : heap.length ≤ fuel) :
    (popAll lt fuel heap).Perm heap := by
  induction fuel generalizing heap with
  | zero =>
    rw [eq_nil_of_length_eq_zero (Nat.eq_zero_of_le_zero hfuel)]
    exact List.Perm.refl _
  | succ fuel ih =>
    unfold popAll
    split
    · next hnone =>
      rw [(heappop_eq_none_iff lt).mp hnone]
    · next item rest hsome =>
      have hperm := heappop_perm lt hsome
      have hlen := hperm.length_eq
      rw [length_cons] at hlen
      exact ((ih rest (by omega)).cons item).trans hperm

end Vllm.Heapq
