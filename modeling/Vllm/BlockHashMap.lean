import Mathlib.Data.List.Nodup
import Vllm.BlockHashing

/-!
The prefix-cache index. A key packs a block hash with the id of the KV cache
group in its last four bytes. The index maps a key to one block, or to a
dictionary of blocks once several blocks hold the same key; a dictionary is
the list of its block ids in insertion order.
-/
namespace Vllm.BlockHashMap

open BlockHashing

abbrev BlockHashWithGroupId := Bytes

abbrev GroupId := UInt32

def groupIdBytes (g : GroupId) : Bytes :=
  [UInt8.ofNat (g.toNat / 2 ^ 24), UInt8.ofNat (g.toNat / 2 ^ 16), UInt8.ofNat (g.toNat / 2 ^ 8),
    UInt8.ofNat g.toNat]

def makeBlockHashWithGroupId (blockHash : BlockHash) (groupId : GroupId) : BlockHashWithGroupId :=
  blockHash ++ groupIdBytes groupId

def getBlockHash (key : BlockHashWithGroupId) : BlockHash := key.take (key.length - 4)

def getGroupId (key : BlockHashWithGroupId) : GroupId :=
  UInt32.ofNat ((key.drop (key.length - 4)).foldl (fun acc b => acc * 256 + b.toNat) 0)

@[simp]
theorem getBlockHash_make (h : BlockHash) (g : GroupId) :
    getBlockHash (makeBlockHashWithGroupId h g) = h := by
  simp [getBlockHash, makeBlockHashWithGroupId, groupIdBytes]

@[simp]
theorem getGroupId_make (h : BlockHash) (g : GroupId) :
    getGroupId (makeBlockHashWithGroupId h g) = g := by
  have hlt := g.toNat_lt
  have hbytes : ((makeBlockHashWithGroupId h g).drop
      ((makeBlockHashWithGroupId h g).length - 4)) = groupIdBytes g := by
    simp [makeBlockHashWithGroupId, groupIdBytes]
  rw [getGroupId, hbytes]
  apply UInt32.toNat.inj
  simp [groupIdBytes]
  omega

inductive KVCacheBlocks (n : ℕ) where
  | one (b : Fin n)
  | many (bs : List (Fin n))
deriving DecidableEq, Repr

structure BlockHashToBlockMap (n : ℕ) where
  cache : BlockHashWithGroupId → Option (KVCacheBlocks n)

namespace BlockHashToBlockMap

variable {n : ℕ}

def empty : BlockHashToBlockMap n := ⟨fun _ => none⟩

variable (m : BlockHashToBlockMap n)

def setEntry (key : BlockHashWithGroupId) (entry : Option (KVCacheBlocks n)) :
    BlockHashToBlockMap n :=
  ⟨Function.update m.cache key entry⟩

def getOneBlock (key : BlockHashWithGroupId) : Option (Fin n) :=
  match m.cache key with
  | none => none
  | some (.one b) => some b
  | some (.many bs) => bs.head?

def contain (key : BlockHashWithGroupId) (blockId : Fin n) : Bool :=
  match m.cache key with
  | none => false
  | some (.one b) => b = blockId
  | some (.many bs) => bs.contains blockId

def insert (key : BlockHashWithGroupId) (block : Fin n) : BlockHashToBlockMap n :=
  -- Inserting the very block a key maps to still builds a dictionary, with one entry.
  match m.cache key with
  | none => m.setEntry key (some (.one block))
  | some (.one b) => m.setEntry key (some (.many (if b = block then [b] else [b, block])))
  | some (.many bs) =>
    m.setEntry key (some (.many (if bs.contains block then bs else bs ++ [block])))

def pop (key : BlockHashWithGroupId) (blockId : Fin n) : Option (Fin n) × BlockHashToBlockMap n :=
  match m.cache key with
  | none => (none, m)
  | some (.one b) => if b = blockId then (some b, m.setEntry key none) else (none, m)
  | some (.many bs) =>
    let rest := bs.erase blockId
    (if bs.contains blockId then some blockId else none,
      m.setEntry key (if rest = [] then none else some (.many rest)))

def blocksAt (key : BlockHashWithGroupId) : List (Fin n) :=
  match m.cache key with
  | none => []
  | some (.one b) => [b]
  | some (.many bs) => bs

def WellFormed : Prop :=
  ∀ key bs, m.cache key = some (.many bs) → bs ≠ [] ∧ bs.Nodup

theorem wellFormed_empty : (empty : BlockHashToBlockMap n).WellFormed := by
  intro key bs h
  cases h

variable (m : BlockHashToBlockMap n) (key : BlockHashWithGroupId) (blockId : Fin n)

@[simp]
theorem blocksAt_empty : (empty : BlockHashToBlockMap n).blocksAt key = [] := rfl

/-- A lookup by key returns the block that was inserted first. -/
theorem getOneBlock_eq : m.getOneBlock key = (m.blocksAt key).head? := by
  unfold getOneBlock blocksAt
  cases m.cache key with
  | none => rfl
  | some entry => cases entry <;> rfl

theorem contain_iff (b : Fin n) : m.contain key b = true ↔ b ∈ m.blocksAt key := by
  unfold contain blocksAt
  cases m.cache key with
  | none => simp
  | some entry => cases entry <;> simp [eq_comm]

theorem WellFormed.nodup_blocksAt {m : BlockHashToBlockMap n} (hwf : m.WellFormed)
    (key : BlockHashWithGroupId) : (m.blocksAt key).Nodup := by
  unfold blocksAt
  cases hentry : m.cache key with
  | none => exact List.nodup_nil
  | some entry =>
    cases entry with
    | one b => exact List.nodup_singleton b
    | many bs => exact (hwf key bs hentry).2

theorem cache_setEntry_self (entry : Option (KVCacheBlocks n)) :
    (m.setEntry key entry).cache key = entry := by
  simp [setEntry]

theorem cache_setEntry_of_ne {key k : BlockHashWithGroupId} (hne : k ≠ key)
    (m : BlockHashToBlockMap n) (entry : Option (KVCacheBlocks n)) :
    (m.setEntry key entry).cache k = m.cache k := by
  simp [setEntry, hne]

/-- The one place where an entry changes: the invariant asks nothing of the other keys. -/
theorem WellFormed.setEntry {m : BlockHashToBlockMap n} (hwf : m.WellFormed)
    {key : BlockHashWithGroupId} {entry : Option (KVCacheBlocks n)}
    (hentry : ∀ bs, entry = some (.many bs) → bs ≠ [] ∧ bs.Nodup) :
    (m.setEntry key entry).WellFormed := by
  intro k bs hk
  by_cases hne : k = key
  · subst k
    rw [cache_setEntry_self] at hk
    exact hentry bs hk
  · rw [cache_setEntry_of_ne hne] at hk
    exact hwf k bs hk

theorem cache_insert_of_ne {key k : BlockHashWithGroupId} (hne : k ≠ key)
    (m : BlockHashToBlockMap n) (block : Fin n) : (m.insert key block).cache k = m.cache k := by
  unfold insert
  cases m.cache key with
  | none => exact cache_setEntry_of_ne hne m _
  | some entry => cases entry <;> exact cache_setEntry_of_ne hne m _

/-- An inserted block goes behind those that are there, and once only. -/
theorem blocksAt_insert_self (block : Fin n) : (m.insert key block).blocksAt key =
      if block ∈ m.blocksAt key then m.blocksAt key else m.blocksAt key ++ [block] := by
  unfold insert blocksAt
  cases hentry : m.cache key with
  | none => simp [cache_setEntry_self]
  | some entry =>
    cases entry with
    | one b =>
      by_cases hb : b = block
      · simp [cache_setEntry_self, hb]
      · simp [cache_setEntry_self, hb, Ne.symm hb]
    | many bs => simp [cache_setEntry_self]

/-- Insertion adds one pair of key and block and touches no other. -/
theorem mem_blocksAt_insert (key k : BlockHashWithGroupId) (block c : Fin n) :
    c ∈ (m.insert key block).blocksAt k ↔ c ∈ m.blocksAt k ∨ (k = key ∧ c = block) := by
  by_cases hne : k = key
  · subst k
    rw [blocksAt_insert_self]
    by_cases hb : block ∈ m.blocksAt key
    · rw [if_pos hb]
      constructor
      · exact Or.inl
      · rintro (hc | ⟨-, rfl⟩)
        · exact hc
        · exact hb
    · rw [if_neg hb]
      simp
  · rw [blocksAt, cache_insert_of_ne hne]
    simp [hne, blocksAt]

/-- Neither a first nor a further insertion makes an empty or repeating dictionary. -/
theorem wellFormed_insert {m : BlockHashToBlockMap n} (hwf : m.WellFormed)
    (key : BlockHashWithGroupId) (block : Fin n) : (m.insert key block).WellFormed := by
  unfold insert
  cases hentry : m.cache key with
  | none => exact hwf.setEntry (by simp)
  | some entry =>
    cases entry with
    | one b =>
      refine hwf.setEntry ?_
      by_cases hb : b = block <;> simp [hb]
    | many bs =>
      obtain ⟨hne, hnd⟩ := hwf key bs hentry
      refine hwf.setEntry ?_
      by_cases hb : block ∈ bs
      · simp [hb, hne, hnd]
      · simp only [List.contains_iff_mem, if_neg hb, Option.some.injEq,
          KVCacheBlocks.many.injEq, forall_eq']
        refine ⟨by simp, List.nodup_append.mpr ⟨hnd, List.nodup_singleton block, ?_⟩⟩
        intro x hx y hy hxy
        exact hb (List.mem_singleton.mp hy ▸ hxy ▸ hx)

theorem cache_pop_of_ne {key k : BlockHashWithGroupId} (hne : k ≠ key)
    (m : BlockHashToBlockMap n) (blockId : Fin n) :
    (m.pop key blockId).2.cache k = m.cache k := by
  unfold pop
  cases m.cache key with
  | none => rfl
  | some entry =>
    cases entry with
    | one b =>
      by_cases hb : b = blockId
      · simp only [if_pos hb]
        exact cache_setEntry_of_ne hne m _
      · simp only [if_neg hb]
    | many bs => exact cache_setEntry_of_ne hne m _

/-- Popping erases the block under its key, whatever form the entry has. -/
theorem blocksAt_pop_self :
    (m.pop key blockId).2.blocksAt key = (m.blocksAt key).erase blockId := by
  unfold pop blocksAt
  cases hentry : m.cache key with
  | none => simp [hentry]
  | some entry =>
    cases entry with
    | one b =>
      by_cases hb : b = blockId
      · simp [cache_setEntry_self, hb]
      · simp [hentry, hb]
    | many bs =>
      by_cases hrest : bs.erase blockId = []
      · simp [cache_setEntry_self, hrest]
      · simp [cache_setEntry_self, hrest]

/-- A pop returns the block exactly when the key maps to it. -/
theorem pop_fst :
    (m.pop key blockId).1 = if blockId ∈ m.blocksAt key then some blockId else none := by
  unfold pop blocksAt
  cases m.cache key with
  | none => rfl
  | some entry =>
    cases entry with
    | one b =>
      by_cases hb : b = blockId
      · simp [hb]
      · simp [hb, Ne.symm hb]
    | many bs => simp

/-- Popping removes one pair of key and block and touches no other. -/
theorem mem_blocksAt_pop {m : BlockHashToBlockMap n} (hwf : m.WellFormed)
    (key k : BlockHashWithGroupId) (blockId c : Fin n) :
    c ∈ (m.pop key blockId).2.blocksAt k ↔ c ∈ m.blocksAt k ∧ ¬ (k = key ∧ c = blockId) := by
  by_cases hne : k = key
  · subst k
    rw [blocksAt_pop_self, (hwf.nodup_blocksAt key).mem_erase_iff]
    simp [and_comm]
  · rw [blocksAt, cache_pop_of_ne hne]
    simp [hne, blocksAt]

/-- A dictionary that a pop leaves empty is deleted with its key. -/
theorem wellFormed_pop {m : BlockHashToBlockMap n} (hwf : m.WellFormed)
    (key : BlockHashWithGroupId) (blockId : Fin n) : (m.pop key blockId).2.WellFormed := by
  unfold pop
  cases hentry : m.cache key with
  | none => exact hwf
  | some entry =>
    cases entry with
    | one b =>
      by_cases hb : b = blockId
      · simp only [if_pos hb]
        exact hwf.setEntry (by simp)
      · simp only [if_neg hb]
        exact hwf
    | many bs =>
      obtain ⟨-, hnd⟩ := hwf key bs hentry
      refine hwf.setEntry ?_
      by_cases hrest : bs.erase blockId = []
      · simp [hrest]
      · simp only [if_neg hrest, Option.some.injEq, KVCacheBlocks.many.injEq, forall_eq']
        exact ⟨hrest, hnd.erase blockId⟩

end BlockHashToBlockMap

end Vllm.BlockHashMap
