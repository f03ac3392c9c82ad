import Vllm.IntrusiveList
import Vllm.Outcome

/-!
The queue of free KV cache blocks. Its blocks are threaded on a doubly linked
list between a fake head and a fake tail, and every operation splices that
list in place. `Represents` ties the links to the list of block ids they
spell out, in eviction order; each operation is then a list operation.
-/
namespace Vllm.FreeBlockQueue

open Outcome IntrusiveList List Links

/-- The owners of free-list links: the pool's blocks and the two sentinels. -/
inductive Node (n : ℕ) where
  | fakeHead
  | fakeTail
  | block (b : Fin n)
deriving DecidableEq, Repr

structure FreeKVCacheBlockQueue (n : ℕ) where
  links : Links (Node n)
  numFreeBlocks : ℕ

abbrev QueueM (n : ℕ) := EStateM Failure (FreeKVCacheBlockQueue n)

variable {n : ℕ}

/-- `FreeKVCacheBlockQueue.__init__`: consecutive blocks are linked and the
ends are connected to the sentinels. Each link is written once. -/
def init (blocks : List (Fin n)) : FreeKVCacheBlockQueue n where
  links := Links.insertRun ⟨fun _ => none, fun _ => none⟩ .fakeHead .fakeTail (blocks.map .block)
  numFreeBlocks := blocks.length

def popleft : QueueM n (Fin n) := do
  let q ← get
  match q.links.next .fakeHead with
  | some (.block first) =>
    match q.links.next (.block first) with
    | none =>
      throw (.runtimeError
        "Invalid block found in popleft() which doesn't have a valid next_free_block")
    | some second =>
      set { links := ((q.links.setNext .fakeHead (some second)).setPrev second
              (some .fakeHead)).detach (.block first)
            numFreeBlocks := q.numFreeBlocks - 1 : FreeKVCacheBlockQueue n }
      return first
  | _ =>
    check (q.numFreeBlocks = 0) (.assertionError
      s!"num_free_blocks ({q.numFreeBlocks}) is out of sync with the free list.")
    throw (.valueError "No free blocks available")

/-- The loop of `popleft_n`: the blocks popped and the block it stopped at. -/
def popLoop : ℕ → Option (Node n) → QueueM n (List (Fin n) × Option (Node n))
  | 0, curr => pure ([], curr)
  | k + 1, some (.block b) => do
    let q ← get
    set { q with links := q.links.detach (.block b) }
    let (rest, curr) ← popLoop k (q.links.next (.block b))
    return (b :: rest, curr)
  | _ + 1, _ => throw (.assertionError "curr_block is not None")

def popleftN (k : ℕ) : QueueM n (List (Fin n)) := do
  if k = 0 then
    return []
  let q ← get
  check (k ≤ q.numFreeBlocks) (.assertionError "self.num_free_blocks >= n")
  set { q with numFreeBlocks := q.numFreeBlocks - k }
  let (ret, curr) ← popLoop k (q.links.next .fakeHead)
  match curr with
  | none => return ret
  | some curr =>
    modify fun q =>
      { q with links := (q.links.setNext .fakeHead (some curr)).setPrev curr (some .fakeHead) }
    return ret

def remove (b : Fin n) : QueueM n PUnit := do
  -- The error text is followed by the block's own representation in the source.
  let q ← get
  match q.links.prev (.block b), q.links.next (.block b) with
  | some p, some s =>
    set { links := q.links.unlink p (.block b) s
          numFreeBlocks := q.numFreeBlocks - 1 : FreeKVCacheBlockQueue n }
  | _, _ => throw (.runtimeError "remove() called on an invalid block: ")

def append (b : Fin n) : QueueM n PUnit := do
  let q ← get
  match q.links.prev .fakeTail with
  | none =>
    throw (.runtimeError "prev_free_block of fake_free_list_tail should always exist")
  | some last =>
    set { links := (((q.links.setNext last (some (.block b))).setPrev (.block b)
            (some last)).setNext (.block b) (some .fakeTail)).setPrev .fakeTail (some (.block b))
          numFreeBlocks := q.numFreeBlocks + 1 : FreeKVCacheBlockQueue n }

def prependN (blocks : List (Fin n)) : QueueM n PUnit := do
  if blocks.length = 0 then
    return
  let q ← get
  match q.links.next .fakeHead with
  | none =>
    throw (.assertionError "next_free_block of fake_free_list_head should always exist")
  | some first =>
    set { links := q.links.insertRun .fakeHead first (blocks.map .block)
          numFreeBlocks := q.numFreeBlocks + blocks.length : FreeKVCacheBlockQueue n }

def appendN (blocks : List (Fin n)) : QueueM n PUnit := do
  if blocks.length = 0 then
    return
  let q ← get
  match q.links.prev .fakeTail with
  | none =>
    throw (.assertionError "prev_free_block of fake_free_list_tail should always exist")
  | some last =>
    set { links := q.links.insertRun last .fakeTail (blocks.map .block)
          numFreeBlocks := q.numFreeBlocks + blocks.length : FreeKVCacheBlockQueue n }

def nodes (free : List (Fin n)) : List (Node n) :=
  .fakeHead :: (free.map .block ++ [.fakeTail])

/-- The links spell out `free` between the sentinels, and no other block has
a link. -/
structure Represents (q : FreeKVCacheBlockQueue n) (free : List (Fin n)) : Prop where
  linked : q.links.Linked (nodes free)
  nodup : free.Nodup
  count : q.numFreeBlocks = free.length
  detached : ∀ b, b ∉ free → q.links.Detached (.block b)
  head_prev : q.links.prev .fakeHead = none
  tail_next : q.links.next .fakeTail = none

variable {q : FreeKVCacheBlockQueue n} {free : List (Fin n)} {b : Fin n} {u v : List (Node n)}
  {bs : List (Fin n)} {p s : Node n} {k : ℕ}

theorem nodes_nodup (h : free.Nodup) : (nodes free).Nodup := by
  have hmap : (free.map Node.block).Nodup := h.map (fun _ _ hab => Node.block.inj hab)
  simp [nodes, nodup_append, hmap]

@[simp]
theorem mem_map_block {l : List (Fin n)} : Node.block b ∈ l.map Node.block ↔ b ∈ l := by simp

theorem nodes_append (u v : List (Fin n)) :
    nodes (u ++ v) = (.fakeHead :: u.map .block) ++ (v.map .block ++ [.fakeTail]) := by
  simp [nodes]

/-- The part of the list behind the head starts with a node that is not it. -/
theorem exists_behind (free : List (Fin n)) :
    ∃ s v, free.map Node.block ++ [.fakeTail] = s :: v ∧ s ≠ .fakeHead := by
  cases free with
  | nil => exact ⟨_, _, rfl, by simp⟩
  | cons b bs => exact ⟨_, _, rfl, by simp⟩

/-- The part of the list before the tail ends with a node that is not it. -/
theorem exists_before (free : List (Fin n)) :
    ∃ u p, Node.fakeHead :: free.map Node.block = u ++ [p] ∧ p ≠ .fakeTail := by
  rcases eq_nil_or_concat free with rfl | ⟨bs, b, rfl⟩
  · exact ⟨[], .fakeHead, rfl, by simp⟩
  · exact ⟨.fakeHead :: bs.map .block, .block b, by simp, by simp⟩

@[simp]
theorem block_mem_nodes : Node.block b ∈ nodes free ↔ b ∈ free := by simp [nodes]

/-- Blocks put between two neighbours appear there in the list that the links spell out. -/
theorem Represents.insertRun {free' : List (Fin n)} (h : Represents q free)
    (hold : nodes free = u ++ p :: s :: v)
    (hnew : nodes free' = u ++ (p :: bs.map .block ++ s :: v)) (hnd : free'.Nodup)
    (hp : p ≠ .fakeTail) (hs : s ≠ .fakeHead) :
    Represents { links := q.links.insertRun p s (bs.map .block)
                 numFreeBlocks := q.numFreeBlocks + bs.length } free' where
  linked := by
    rw [hnew]
    refine insertRun_linked ?_ ?_
    · rw [← hold]
      exact h.linked
    · rw [← hnew]
      exact nodes_nodup hnd
  nodup := hnd
  count := by
    have hlen := congrArg List.length hnew
    have hlen' := congrArg List.length hold
    simp [nodes] at hlen hlen'
    have hcount := h.count
    show q.numFreeBlocks + bs.length = free'.length
    omega
  detached := by
    intro b hb
    rw [← block_mem_nodes, hnew] at hb
    simp only [mem_append, mem_cons, not_or] at hb
    obtain ⟨hbu, ⟨hbp, hbbs⟩, hbs, hbv⟩ := hb
    have hfree : b ∉ free := by
      rw [← block_mem_nodes, hold]
      simp [hbu, hbp, hbs, hbv]
    constructor
    · rw [insertRun_prev_of_notMem hbs hbbs]
      exact (h.detached b hfree).1
    · rw [insertRun_next_of_notMem (by simp [hbp, hbbs])]
      exact (h.detached b hfree).2
  head_prev := by
    rw [insertRun_prev_of_notMem (Ne.symm hs) (by simp)]
    exact h.head_prev
  tail_next := by
    rw [insertRun_next_of_notMem (by simp [Ne.symm hp])]
    exact h.tail_next

/-- Blocks taken out between two neighbours disappear from that list. -/
theorem Represents.removeRun {free' : List (Fin n)} (h : Represents q free)
    (hold : nodes free = u ++ (p :: bs.map .block ++ s :: v))
    (hnew : nodes free' = u ++ p :: s :: v) (hnd : free'.Nodup) (hk : k = free'.length)
    (hp : p ≠ .fakeTail) (hs : s ≠ .fakeHead) :
    Represents { links := q.links.removeRun p s (bs.map .block), numFreeBlocks := k } free' where
  linked := by
    rw [hnew]
    refine removeRun_linked ?_ ?_
    · rw [← hold]
      exact h.linked
    · rw [← hold]
      exact nodes_nodup h.nodup
  nodup := hnd
  count := hk
  detached := by
    intro b hb
    rw [← block_mem_nodes, hnew] at hb
    simp only [mem_append, mem_cons, not_or] at hb
    obtain ⟨hbu, hbp, hbs, hbv⟩ := hb
    by_cases hbbs : b ∈ bs
    · constructor
      · simp [removeRun_prev, hbs, hbbs]
      · simp [removeRun_next, hbp, hbbs]
    · have hfree : b ∉ free := by
        rw [← block_mem_nodes, hold]
        simp [hbu, hbp, hbs, hbv, hbbs]
      constructor
      · simp [removeRun_prev, hbs, hbbs, (h.detached b hfree).1]
      · simp [removeRun_next, hbp, hbbs, (h.detached b hfree).2]
  head_prev := by simp [removeRun_prev, Ne.symm hs, h.head_prev]
  tail_next := by simp [removeRun_next, Ne.symm hp, h.tail_next]

theorem init_represents (blocks : List (Fin n)) (hnd : blocks.Nodup) :
    Represents (init blocks) blocks where
  linked := insertRun_linked_closed (nodes_nodup hnd) _
  nodup := hnd
  count := rfl
  detached := by
    intro b hb
    constructor
    · rw [init, insertRun_prev_of_notMem (by simp) (by simpa using hb)]
    · rw [init, insertRun_next_of_notMem (by simpa using hb)]
  head_prev := by rw [init, insertRun_prev_of_notMem (by simp) (by simp)]
  tail_next := by rw [init, insertRun_next_of_notMem (by simp)]

/-- The loop follows the links and clears them behind itself. -/
theorem popLoop_spec (xs : List (Fin n)) (s : Node n) (q : FreeKVCacheBlockQueue n)
    (hlinked : q.links.Linked (xs.map .block ++ [s])) (hnd : (xs.map Node.block ++ [s]).Nodup) :
    Ensures (popLoop xs.length (xs.map Node.block ++ [s]).head?) q
      (fun r q' => r = (xs, some s) ∧ q' = { q with links := q.links.detachAll (xs.map .block) })
      (fun _ _ => False) := by
  induction xs generalizing q with
  | nil => exact ⟨rfl, rfl⟩
  | cons x xs ih =>
    have hnext : q.links.next (.block x) = (xs.map Node.block ++ [s]).head? := by
      cases xs with
      | nil => exact (linked_cons_cons.mp hlinked).1.1
      | cons y ys => exact (linked_cons_cons.mp hlinked).1.1
    have htail : q.links.Linked (xs.map .block ++ [s]) := List.IsChain.of_cons hlinked
    obtain ⟨hx, hnd'⟩ := nodup_cons.mp hnd
    have hdet : (q.links.detach (.block x)).Linked (xs.map .block ++ [s]) := by
      refine htail.congr ?_ ?_
      · intro y hy
        rw [detach_next, if_neg]
        rintro rfl
        exact hx (dropLast_subset _ hy)
      · intro y hy
        rw [detach_prev, if_neg]
        rintro rfl
        exact hx (mem_of_mem_tail hy)
    have hrest := ih { q with links := q.links.detach (.block x) } hdet hnd'
    simp only [length_cons, map_cons, cons_append, head?_cons, popLoop,
      ensures_bind, ensures_get, ensures_set, hnext]
    refine hrest.imp ?_
    rintro r q' ⟨rfl, rfl⟩
    exact ⟨rfl, rfl⟩

variable (h : Represents q free)
include h

/-- `popleft_n` takes the first blocks of the list and never stops when there are enough. -/
theorem popleftN_spec (hk : k ≤ free.length) : Ensures (popleftN k) q
      (fun r q' => r = free.take k ∧ Represents q' (free.drop k)) (fun _ _ => False) := by
  by_cases hzero : k = 0
  · subst k
    exact ⟨rfl, h⟩
  obtain ⟨s, v, hsv, hs⟩ := exists_behind (free.drop k)
  have hold : nodes free = [] ++ (.fakeHead :: (free.take k).map .block ++ s :: v) := by
    rw [← hsv, nil_append, ← nodes_append, take_append_drop]
  have hnew : nodes (free.drop k) = [] ++ .fakeHead :: s :: v := by
    rw [nodes, hsv, nil_append]
  have hlinked := h.linked
  have hnd := nodes_nodup h.nodup
  rw [hold, nil_append, cons_append] at hlinked hnd
  have hfirst : q.links.next .fakeHead = ((free.take k).map Node.block ++ [s]).head? := by
    cases hxs : (free.take k).map Node.block with
    | nil =>
      rw [hxs] at hlinked
      exact (linked_cons_cons.mp hlinked).1.1
    | cons x xs =>
      rw [hxs] at hlinked
      exact (linked_cons_cons.mp hlinked).1.1
  have hrun : q.links.Linked ((free.take k).map .block ++ [s]) :=
    (isChain_split.mp (List.IsChain.of_cons hlinked)).1
  have hrunnd : ((free.take k).map Node.block ++ [s]).Nodup := by
    refine (nodup_cons.mp hnd).2.sublist (List.Sublist.append_left ?_ _)
    exact singleton_sublist.mpr mem_cons_self
  have hloop := popLoop_spec (free.take k) s
    { q with numFreeBlocks := q.numFreeBlocks - k } hrun hrunnd
  rw [length_take_of_le hk] at hloop
  have hcount : q.numFreeBlocks - k = (free.drop k).length := by
    rw [h.count, length_drop]
  have hle : k ≤ q.numFreeBlocks := by
    rw [h.count]
    exact hk
  simp only [popleftN, hzero, if_false, ensures_bind, ensures_get, ensures_check, ensures_set,
    hfirst]
  refine ⟨fun _ => hloop.mono ?_ (fun _ _ hfalse => hfalse), fun hn => hn hle⟩
  rintro r q' ⟨rfl, rfl⟩
  exact ⟨rfl, h.removeRun hold hnew (h.nodup.sublist (drop_sublist k free)) hcount
    (by simp) hs⟩

/-- A block of the list with its neighbours, and the list without it. -/
theorem Represents.cut (hb : b ∈ free) :
    ∃ p s, q.links.prev (.block b) = some p ∧ q.links.next (.block b) = some s ∧
      Represents ⟨q.links.unlink p (.block b) s, q.numFreeBlocks - 1⟩ (free.erase b) := by
  obtain ⟨l, r, hfree, hl⟩ := eq_append_cons_of_mem hb
  obtain ⟨u, p, hup, hp⟩ := exists_before l
  obtain ⟨s, v, hsv, hs⟩ := exists_behind r
  have herase : free.erase b = l ++ r := by
    rw [hfree, erase_append_right _ hl, erase_cons_head]
  have hold : nodes free = u ++ (p :: [b].map .block ++ s :: v) := by
    rw [hfree, nodes_append, hup, map_cons, cons_append, hsv]
    simp
  have hnew : nodes (free.erase b) = u ++ p :: s :: v := by
    rw [herase, nodes_append, hup, hsv]
    simp
  have hlinked := h.linked
  have hnd := nodes_nodup h.nodup
  rw [hold] at hlinked hnd
  obtain ⟨-, hpb, hbs⟩ := linked_append_cons_cons.mp hlinked
  have hsb := (linked_cons_cons.mp hbs).1
  simp only [map_cons, map_nil, cons_append, nil_append, nodup_append,
    nodup_cons, mem_cons, not_or] at hnd
  have hrem : q.links.unlink p (.block b) s = q.links.removeRun p s ([b].map .block) :=
    unlink_eq_removeRun hnd.2.1.1.1 (Ne.symm hnd.2.1.2.1.1) q.links
  have hcount : q.numFreeBlocks - 1 = (free.erase b).length := by
    rw [h.count, length_erase_of_mem hb]
  refine ⟨p, s, hpb.2, hsb.1, ?_⟩
  rw [hrem]
  exact h.removeRun hold hnew (h.nodup.erase b) hcount hp hs

/-- `remove` takes a block out wherever it stands. -/
theorem remove_spec (hb : b ∈ free) :
    Ensures (remove b) q (fun _ q' => Represents q' (free.erase b)) (fun _ _ => False) := by
  obtain ⟨p, s, hprev, hnext, hcut⟩ := h.cut hb
  simp only [remove, ensures_bind, ensures_get, hprev, hnext, ensures_set]
  exact hcut

omit h in
theorem popleft_spec (h : Represents q (b :: free)) :
    Ensures popleft q (fun r q' => r = b ∧ Represents q' free) (fun _ _ => False) := by
  obtain ⟨p, s, hprev, hnext, hcut⟩ := h.cut mem_cons_self
  have hfirst := (linked_cons_cons.mp h.linked).1
  have hp : p = .fakeHead := Option.some.inj (hprev.symm.trans hfirst.2)
  rw [erase_cons_head, hp] at hcut
  simp only [popleft, ensures_bind, ensures_get, hfirst.1, hnext, ensures_set, ensures_pure]
  exact ⟨trivial, hcut⟩

/-- The tail's link back leads to the node new blocks are put behind. -/
theorem Represents.cut_tail : ∃ u last, nodes free = u ++ [last, .fakeTail] ∧ last ≠ .fakeTail ∧
      q.links.prev .fakeTail = some last ∧
      ∀ bs : List (Fin n), nodes (free ++ bs) = u ++ (last :: bs.map .block ++ [.fakeTail]) := by
  obtain ⟨u, last, hcut, hlast⟩ := exists_before free
  have hold : nodes free = u ++ [last, .fakeTail] := by
    rw [nodes, ← cons_append, hcut, append_assoc, singleton_append]
  have hlinked := h.linked
  rw [hold, linked_append_cons_cons] at hlinked
  refine ⟨u, last, hold, hlast, hlinked.2.1.2, ?_⟩
  intro bs
  rw [nodes_append, hcut, append_assoc, singleton_append, cons_append]

theorem append_spec (hb : b ∉ free) :
    Ensures (append b) q (fun _ q' => Represents q' (free ++ [b])) (fun _ _ => False) := by
  obtain ⟨u, last, hold, hlast, hprev, hnew⟩ := h.cut_tail
  have hnd : (free ++ [b]).Nodup := nodup_append.mpr
    ⟨h.nodup, nodup_singleton b, fun x hx y hy hxy =>
      hb (mem_singleton.mp hy ▸ hxy ▸ hx)⟩
  simp only [append, ensures_bind, ensures_get, hprev, ensures_set]
  exact h.insertRun hold (hnew [b]) hnd hlast (by simp)

theorem prependN_spec (hnd : (bs ++ free).Nodup) :
    Ensures (prependN bs) q (fun _ q' => Represents q' (bs ++ free)) (fun _ _ => False) := by
  obtain ⟨s, v, hsv, hs⟩ := exists_behind free
  have hold : nodes free = [] ++ .fakeHead :: s :: v := by rw [nodes, hsv, nil_append]
  have hnew : nodes (bs ++ free) = [] ++ (.fakeHead :: bs.map .block ++ s :: v) := by
    rw [nodes_append, hsv, nil_append]
  have hlinked := h.linked
  rw [hold] at hlinked
  have hnext := (linked_cons_cons.mp hlinked).1.1
  cases bs with
  | nil => exact h
  | cons b bs =>
    simp only [prependN, length_cons, Nat.add_one_ne_zero, if_false, ensures_bind,
      ensures_get, hnext, ensures_set]
    exact h.insertRun hold hnew hnd (by simp) hs

theorem appendN_spec (hnd : (free ++ bs).Nodup) :
    Ensures (appendN bs) q (fun _ q' => Represents q' (free ++ bs)) (fun _ _ => False) := by
  obtain ⟨u, last, hold, hlast, hprev, hnew⟩ := h.cut_tail
  cases bs with
  | nil =>
    rw [append_nil]
    exact h
  | cons b bs =>
    simp only [appendN, length_cons, Nat.add_one_ne_zero, if_false, ensures_bind,
      ensures_get, hprev, ensures_set]
    exact h.insertRun hold (hnew (b :: bs)) hnd hlast (by simp)

end Vllm.FreeBlockQueue
