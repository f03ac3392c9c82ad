import Vllm.LongestHit
import Vllm.PoolIndex
import Vllm.RecycledTables

/-!
The tables that the lookups return. Blocks outside the window of a layer are null
blocks and come first. The others are cached, and the null block never is. Both
kinds of managers that recycle blocks rely on it when they attach a hit.
-/
namespace Vllm.LookupHits

open Outcome BlockHashing BlockHashMap CacheManagers CacheHit LongestHit PoolIndex
open RecycledTables List
open Pool hiding resolveBlockHashes

variable {n : ℕ}

/-- `ChunkedLocalAttentionManager.find_longest_cache_hit`, without context
parallelism. What lies before the chunk of the next token counts as computed. -/
def findChunkedLocal (pool : BlockPool n) (attentionChunkSize blockSize : ℕ)
    (groupIds : List GroupId) (blockHashes : List BlockHash) (maxLength : ℕ)
    (dropEagleBlock : Bool) (alignmentTokens : ℕ) : Except Failure (List (Row n) × ℕ) := do
  if dropEagleBlock then
    .error (.assertionError
      "Hybrid KV cache is not supported for eagle + chunked local attention.")
  else if blockSize ≠ alignmentTokens then
    .error (.assertionError ("KV cache groups with different block sizes are not compatible " ++
      "with chunked local attention now"))
  else
    let hashes ← resolveBlockHashes blockHashes pool.hashBlockSize blockSize false
    let maxNumBlocks := maxLength / blockSize
    let localAttentionStartBlockIdx :=
      maxLength / attentionChunkSize * attentionChunkSize / blockSize
    let found := cachedRun (probeAt pool groupIds hashes) localAttentionStartBlockIdx
      (maxNumBlocks - localAttentionStartBlockIdx)
    let stop := localAttentionStartBlockIdx + found.length
    -- the loop reads the hash at the index at which it ends, unless it ran through
    if stop < maxNumBlocks ∧ hashes.length ≤ stop then
      .error indexError
    else
      let rows := replicate localAttentionStartBlockIdx (groupIds.map fun _ => pool.nullBlock) ++
        found
      return (rows, rows.length * blockSize)

/-- Null rows and then rows without the null block. -/
def NullRowsFirst (null : Fin n) (nullRow : Row n) (rows : List (Row n)) : Prop :=
  ∃ k held, rows = replicate k nullRow ++ held ∧ ∀ row ∈ held, null ∉ row

def column (j : ℕ) (rows : List (Row n)) : List (Fin n) := rows.filterMap (·[j]?)

section
variable {null : Fin n} {nullRow : Row n} {rows : List (Row n)}

theorem NullRowsFirst.column (h : NullRowsFirst null nullRow rows) {j : ℕ}
    (hj : nullRow[j]? = some null) : NullsFirst null (column j rows) := by
  obtain ⟨k, held, rfl, hheld⟩ := h
  refine ⟨k, LookupHits.column j held, ?_, ?_⟩
  · simp [LookupHits.column, filterMap_append, hj]
  · intro hmem
    obtain ⟨row, hrow, hget⟩ := mem_filterMap.mp hmem
    exact hheld row hrow (mem_of_getElem? hget)

/-- Cutting the table at the end keeps the null rows in front. -/
theorem NullRowsFirst.take (h : NullRowsFirst null nullRow rows) (c : ℕ) :
    NullRowsFirst null nullRow (rows.take c) := by
  obtain ⟨k, held, rfl, hheld⟩ := h
  refine ⟨min c k, held.take (c - k), ?_, fun row hrow => hheld row (mem_of_mem_take hrow)⟩
  rw [take_append, take_replicate, length_replicate]

theorem nullRowsFirst_of_cached (h : ∀ row ∈ rows, null ∉ row) :
    NullRowsFirst null nullRow rows := ⟨0, rows, rfl, h⟩

end

/-! ### The loops -/

section
variable {probe : ℕ → Option (Row n)} {null : Fin n} {nullRow : Row n}
variable (hprobe : ∀ i row, probe i = some row → null ∉ row)
include hprobe

theorem null_notMem_cachedRun (i k : ℕ) : ∀ row ∈ cachedRun probe i k, null ∉ row := by
  induction k generalizing i with
  | zero => simp [cachedRun]
  | succ k ih =>
    cases hrow : probe i with
    | none => simp [cachedRun, hrow]
    | some row =>
      simp only [cachedRun, hrow, forall_mem_cons]
      exact ⟨hprobe i row hrow, ih (i + 1)⟩

theorem nullRowsFirst_lastState (skip : ℕ → Bool) (bound : ℕ) (nullRow : Row n)
    (rowIdx : ℕ → ℕ) (tokens : ℕ) :
    NullRowsFirst null nullRow (lastState probe skip bound nullRow rowIdx tokens).1 := by
  unfold lastState
  cases hsearch : searchDown probe skip 0 bound with
  | none => exact nullRowsFirst_of_cached (by simp)
  | some found =>
    obtain ⟨i, row⟩ := found
    have hrow := hprobe i row (searchDown_eq_some hsearch).2.2.1
    exact ⟨rowIdx i, [row], rfl, by simpa using hrow⟩

theorem null_notMem_extendPartial {full : List (Row n)} (hfull : ∀ row ∈ full, null ∉ row)
    (blockSize alignmentTokens maxLength numHashes : ℕ) :
    ∀ row ∈ (extendPartial probe blockSize alignmentTokens maxLength numHashes full).1,
      null ∉ row := by
  unfold extendPartial
  dsimp only
  split
  · exact hfull
  · next fineIdx row hsearch =>
    have hrow := hprobe fineIdx row (searchDown_eq_some hsearch).2.2.1
    simp only [mem_append, mem_singleton]
    rintro row (hmem | rfl)
    · exact hfull row hmem
    · exact hrow

/-- The rows before the window are null, those of the window are cached. -/
theorem nullRowsFirst_windowRows {need e : ℕ} (hcached : WindowCached probe need e) :
    NullRowsFirst null nullRow (windowRows probe nullRow need e) := by
  set k := e - max need 1
  have hheld : ∀ row ∈ rowsFrom probe k (e - k), null ∉ row := by
    intro row hrow
    obtain ⟨j, hj, rfl⟩ := mem_map.mp hrow
    have hlt := mem_range.mp hj
    obtain ⟨row, hget⟩ := Option.isSome_iff_exists.mp (hcached (k + j) (by omega) (by omega))
    rw [hget]
    exact hprobe _ row hget
  refine ⟨k, rowsFrom probe k (e - k), ext_getElem? fun j => ?_, hheld⟩
  by_cases hj : j < k
  · have houtside : ¬ e ≤ j + max need 1 := by omega
    rw [getElem?_append_left (by simpa using hj)]
    simp [windowRows, hj, houtside, show j < e by omega]
  · rw [getElem?_append_right (by simpa using hj), length_replicate]
    by_cases hlt : j < e
    · have hinside : e ≤ j + max need 1 := by omega
      simp [windowRows, rowsFrom, hlt, hinside, show j - k < e - k by omega,
        show k + (j - k) = j by omega]
    · simp [windowRows, rowsFrom, hlt, show ¬ j - k < e - k by omega]

end

/-! ### The lookups -/

section
variable {pool : BlockPool n} {groupIds : List GroupId} {blockHashes : List BlockHash}
  {blockSize maxLength alignmentTokens : ℕ} {drop : Bool} {found : List (Row n) × ℕ}
variable (hpool : IndexInv pool)
include hpool

/-- A cached block carries a key, and the null block never does. -/
theorem null_notMem_getCachedBlock {hash : BlockHash} {row : Row n}
    (h : pool.getCachedBlock hash groupIds = some row) : pool.nullBlock ∉ row := by
  unfold BlockPool.getCachedBlock at h
  induction groupIds generalizing row with
  | nil => simp_all
  | cons g gs ih =>
    simp only [mapM_cons, Option.bind_eq_bind, Option.bind_eq_some_iff] at h
    obtain ⟨b, hb, rest, hrest, hrow⟩ := h
    obtain rfl : b :: rest = row := by simpa using hrow
    rw [BlockHashToBlockMap.getOneBlock_eq] at hb
    -- a cached block has a key, and the null block has none
    have hkey := (hpool.index_iff _ b).mp (mem_of_mem_head? hb)
    have hne : pool.nullBlock ≠ b := by
      rintro rfl
      simp [hpool.null_keys] at hkey
    simpa [hne] using ih hrest

theorem null_notMem_probeAt (groupIds : List GroupId) (hashes : List BlockHash) (i : ℕ)
    (row : Row n) (h : probeAt pool groupIds hashes i = some row) : pool.nullBlock ∉ row := by
  obtain ⟨hash, -, hget⟩ := Option.bind_eq_some_iff.mp h
  exact null_notMem_getCachedBlock hpool hget

theorem null_notMem_scanFull (hashes : List BlockHash) (fine : Bool) :
    ∀ row ∈ (scanFull pool blockSize groupIds hashes maxLength alignmentTokens fine).1,
      pool.nullBlock ∉ row := by
  have hrun (fullHashes : List BlockHash) :=
    null_notMem_cachedRun (null_notMem_probeAt hpool groupIds fullHashes) 0 (maxLength / blockSize)
  cases fine with
  | false => exact hrun hashes
  | true => exact null_notMem_extendPartial (null_notMem_probeAt hpool _ hashes) (hrun _) _ _ _ _

theorem nullRowsFirst_findFullAttention
    (h : findFullAttention pool blockSize groupIds blockHashes maxLength drop alignmentTokens =
      .ok found) :
    NullRowsFirst pool.nullBlock (groupIds.map fun _ => pool.nullBlock) found.1 := by
  unfold findFullAttention at h
  cases hresolve : resolveBlockHashes blockHashes pool.hashBlockSize blockSize
    (fineGrained blockSize alignmentTokens) with
  | error e => simp [hresolve, bind, Except.bind] at h
  | ok hashes =>
    simp only [hresolve, bind, Except.bind] at h
    obtain rfl := Except.ok.inj h
    exact (nullRowsFirst_of_cached (null_notMem_scanFull hpool hashes _)).take _

/-- The loop fills the window from the right and leaves null rows before it. -/
theorem nullRowsFirst_findSlidingWindow {window : ℕ}
    (h : findSlidingWindow pool window blockSize groupIds blockHashes maxLength drop
      alignmentTokens = .ok found) :
    NullRowsFirst pool.nullBlock (groupIds.map fun _ => pool.nullBlock) found.1 := by
  have halign : alignmentTokens % blockSize = 0 := by
    by_contra hne
    simp [findSlidingWindow, hne] at h
  cases hresolve : resolveBlockHashes blockHashes pool.hashBlockSize blockSize false with
  | error e => simp [findSlidingWindow, halign, hresolve, bind, Except.bind] at h
  | ok hashes =>
    have hcovered : maxLength / blockSize ≤ hashes.length := by
      by_contra hlt
      simp [findSlidingWindow, halign, hresolve, bind, Except.bind, not_le.mp hlt] at h
    obtain ⟨e, -, hcached, -, hfind⟩ :=
      findSlidingWindow_spec window groupIds drop halign hresolve hcovered
    obtain rfl := Except.ok.inj (hfind.symm.trans h)
    refine NullRowsFirst.take ?_ _
    rcases Nat.eq_zero_or_pos e with rfl | hpos
    · exact nullRowsFirst_of_cached (by simp [windowRows])
    · exact nullRowsFirst_windowRows (null_notMem_probeAt hpool groupIds hashes) (hcached hpos).2

theorem nullRowsFirst_findMamba
    (h : findMamba pool blockSize groupIds blockHashes maxLength alignmentTokens = .ok found) :
    NullRowsFirst pool.nullBlock (groupIds.map fun _ => pool.nullBlock) found.1 := by
  unfold findMamba at h
  cases hresolve : resolveBlockHashes blockHashes pool.hashBlockSize blockSize
    (fineGrained blockSize alignmentTokens) with
  | error e => simp [hresolve, bind, Except.bind] at h
  | ok hashes =>
    simp only [hresolve, bind, Except.bind] at h
    have hprobe := null_notMem_probeAt hpool groupIds hashes
    split_ifs at h
    · obtain rfl := Except.ok.inj h
      exact nullRowsFirst_lastState hprobe _ _ _ _ _
    · obtain rfl := Except.ok.inj h
      exact nullRowsFirst_lastState hprobe _ _ _ _ _

/-- The null rows stand for what lies before the chunk. -/
theorem nullRowsFirst_findChunkedLocal {attentionChunkSize : ℕ}
    (h : findChunkedLocal pool attentionChunkSize blockSize groupIds blockHashes maxLength drop
      alignmentTokens = .ok found) :
    NullRowsFirst pool.nullBlock (groupIds.map fun _ => pool.nullBlock) found.1 := by
  unfold findChunkedLocal at h
  split_ifs at h
  cases hresolve : resolveBlockHashes blockHashes pool.hashBlockSize blockSize false with
  | error e => simp [hresolve, bind, Except.bind] at h
  | ok hashes =>
    simp only [hresolve, bind, Except.bind] at h
    split_ifs at h
    obtain rfl := Except.ok.inj h
    exact ⟨_, _, rfl, null_notMem_cachedRun (null_notMem_probeAt hpool groupIds hashes) _ _⟩

end

/-- What the coordinators hand on: the table of a lookup, of which they may keep
only the first rows. -/
inductive Returned (pool : BlockPool n) : List GroupId → List (Row n) → Prop
  | lookup {g blockHashes maxLength drop alignmentTokens found}
      (h : findLongestCacheHit pool g blockHashes maxLength drop alignmentTokens = .ok found) :
      Returned pool g.groupIds found.1
  | chunkedLocal {attentionChunkSize blockSize groupIds blockHashes maxLength drop
        alignmentTokens found}
      (h : findChunkedLocal pool attentionChunkSize blockSize groupIds blockHashes maxLength drop
        alignmentTokens = .ok found) : Returned pool groupIds found.1
  | take {groupIds rows} (h : Returned pool groupIds rows) (c : ℕ) :
      Returned pool groupIds (rows.take c)

/-- All lookups agree in this, and so do the tables that the coordinators cut. -/
theorem Returned.nullRowsFirst {pool : BlockPool n} {groupIds : List GroupId}
    {rows : List (Row n)} (h : Returned pool groupIds rows) (hpool : IndexInv pool) :
    NullRowsFirst pool.nullBlock (groupIds.map fun _ => pool.nullBlock) rows := by
  induction h with
  | @lookup g blockHashes maxLength drop alignmentTokens found h =>
    unfold findLongestCacheHit at h
    cases hkind : g.kind with
    | fullAttention => exact nullRowsFirst_findFullAttention hpool (by simpa [hkind] using h)
    | slidingWindow window => exact nullRowsFirst_findSlidingWindow hpool (by simpa [hkind] using h)
    | mamba => exact nullRowsFirst_findMamba hpool (by simpa [hkind] using h)
  | chunkedLocal h => exact nullRowsFirst_findChunkedLocal hpool h
  | take _ c ih => exact ih.take c

/-- The blocks that a lookup in a reachable pool finds for a group can be
attached: null blocks come first and only there. -/
theorem Returned.nullsFirst [NeZero n] {pool : BlockPool n} (hpool : Reachable pool)
    {groupIds : List GroupId} {rows : List (Row n)} (h : Returned pool groupIds rows) {j : ℕ}
    (hj : j < groupIds.length) : NullsFirst pool.nullBlock (column j rows) :=
  (h.nullRowsFirst hpool.indexInv).column (by simp [hj])

end Vllm.LookupHits
