import Mathlib.Data.Rat.Floor
import Vllm.Outcome
import Vllm.OrderedDict

/-!
The replacement policies of the CPU offload pool. A policy organises the blocks
of the pool and chooses victims; the manager reads and writes blocks only
through it. Both policies of the code are translated here: LRU with its list
of evictable blocks, and ARC with two resident lists, two ghost lists and an
adaptive target.
-/
namespace Vllm.Offload

open Outcome

/-- A value stored in a `ctypes.c_int32` field: its residue modulo `2 ^ 32`, the one
closest to 0. -/
def cInt32 (x : ℤ) : ℤ := Int.bmod x 4294967296

/-- A value stored in a `ctypes.c_int64` field: its residue modulo `2 ^ 64`. -/
def cInt64 (x : ℤ) : ℤ := Int.bmod x 18446744073709551616

/-- Status of one block: the transfers that read it, or -1 while it is not ready. -/
structure BlockStatus where
  refCnt : ℤ
  blockId : ℤ
deriving DecidableEq, Repr

namespace BlockStatus

def new (blockId : ℤ) : BlockStatus := ⟨-1, cInt64 blockId⟩

def isReady (b : BlockStatus) : Prop := 0 ≤ b.refCnt

instance (b : BlockStatus) : Decidable b.isReady := inferInstanceAs (Decidable (0 ≤ b.refCnt))

end BlockStatus

/-- The operations of a policy with states `σ` over keys `κ`. A block handed out by
`get` is shared with the policy: `setRefCnt` is an assignment to its count. -/
structure CachePolicy (κ σ : Type) where
  init : (cacheCapacity : ℕ) → σ
  get : σ → κ → Option BlockStatus
  setRefCnt : κ → ℤ → σ → σ
  insert : κ → BlockStatus → σ → σ
  remove : κ → EStateM Failure σ PUnit
  touch : List κ → σ → σ
  evict : (n : ℕ) → (shielded : List κ) → EStateM Failure σ (Option (List (κ × BlockStatus)))
  clear : σ → σ
  markEvictable : κ → σ → σ
  markNonEvictable : κ → EStateM Failure σ PUnit

variable {κ : Type} [DecidableEq κ]

def withRefCnt (k : κ) (r : ℤ) (blocks : List (κ × BlockStatus)) : List (κ × BlockStatus) :=
  blocks.map fun e => if e.1 = k then (e.1, { e.2 with refCnt := r }) else e

/-! ### LRU -/

/-- LRU keeps the keys of idle blocks in a list of their own, least recent first. -/
structure LRUCachePolicy (κ : Type) where
  evictableBlocks : OrderedDict κ PUnit
  blocks : OrderedDict κ BlockStatus

namespace LRUCachePolicy

/-- The first `n` evictable blocks outside `shielded`, or fewer. -/
def candidates (blocks : OrderedDict κ BlockStatus) (shielded : List κ) :
    ℕ → List κ → Except Failure (List (κ × BlockStatus))
  | 0, _ => .ok []
  | _ + 1, [] => .ok []
  | n + 1, k :: ks =>
    if k ∈ shielded then candidates blocks shielded (n + 1) ks
    else
      match blocks.get? k with
      | none => .error (.keyError "blocks")
      | some b =>
        if b.refCnt = 0 then (candidates blocks shielded n ks).map ((k, b) :: ·)
        else .error (.assertionError "block.ref_cnt == 0")

def evict (n : ℕ) (shielded : List κ) :
    EStateM Failure (LRUCachePolicy κ) (Option (List (κ × BlockStatus))) := do
  let s ← get
  if n = 0 then return some []
  match candidates s.blocks shielded n s.evictableBlocks.keys with
  | .error e => throw e
  | .ok victims =>
    if victims.length < n then return none
    set { s with
      evictableBlocks := s.evictableBlocks.eraseAll (victims.map Prod.fst)
      blocks := s.blocks.eraseAll (victims.map Prod.fst) }
    return some victims

def insert (k : κ) (b : BlockStatus) (s : LRUCachePolicy κ) : LRUCachePolicy κ where
  blocks := s.blocks.set k b
  evictableBlocks := if b.refCnt = 0 then s.evictableBlocks.set k ⟨⟩ else s.evictableBlocks

def remove (k : κ) : EStateM Failure (LRUCachePolicy κ) PUnit := do
  let s ← get
  check (k ∈ s.blocks.keys) (.keyError "blocks")
  set { s with blocks := s.blocks.erase k, evictableBlocks := s.evictableBlocks.erase k }

def touch (ks : List κ) (s : LRUCachePolicy κ) : LRUCachePolicy κ :=
  -- Keys are touched from the last to the first; active blocks stay as they are.
  { s with evictableBlocks := ks.reverse.foldl (fun d k => d.moveToEnd k) s.evictableBlocks }

def markNonEvictable (k : κ) : EStateM Failure (LRUCachePolicy κ) PUnit := do
  let s ← get
  check (k ∈ s.evictableBlocks.keys) (.keyError "evictable_blocks")
  set { s with evictableBlocks := s.evictableBlocks.erase k }

end LRUCachePolicy

def lru : CachePolicy κ (LRUCachePolicy κ) where
  init _ := ⟨.empty, .empty⟩
  get s k := s.blocks.get? k
  setRefCnt k r s := { s with blocks := s.blocks.adjust k fun b => { b with refCnt := r } }
  insert := LRUCachePolicy.insert
  remove := LRUCachePolicy.remove
  touch := LRUCachePolicy.touch
  evict := LRUCachePolicy.evict
  clear _ := ⟨.empty, .empty⟩
  markEvictable k s := { s with evictableBlocks := s.evictableBlocks.set k ⟨⟩ }
  markNonEvictable := LRUCachePolicy.markNonEvictable

/-! ### ARC -/

/-- Rounding of floating-point results: monotone, and exact on the integers that a
double represents. -/
structure FloatRounding where
  fl : ℚ → ℚ
  mono : Monotone fl
  fl_int : ∀ z : ℤ, |z| ≤ 2 ^ 53 → fl z = z

def exactRounding : FloatRounding where
  fl := id
  mono := monotone_id
  fl_int _ _ := rfl

def truncate (x : ℚ) : ℤ := if 0 ≤ x then ⌊x⌋ else ⌈x⌉

/-- ARC: recent blocks `t1`, frequent blocks `t2`, and the keys lately evicted from
either in `b1` and `b2`. -/
structure ARCCachePolicy (κ : Type) where
  cacheCapacity : ℕ
  targetT1Size : ℚ
  t1 : OrderedDict κ BlockStatus
  t2 : OrderedDict κ BlockStatus
  b1 : OrderedDict κ PUnit
  b2 : OrderedDict κ PUnit

namespace ARCCachePolicy

variable (F : FloatRounding) (k : κ) (s : ARCCachePolicy κ)

def get (k : κ) : Option BlockStatus := (s.t1.get? k).or (s.t2.get? k)

def insert (b : BlockStatus) (s : ARCCachePolicy κ) : ARCCachePolicy κ :=
  { s with t1 := s.t1.set k b, b1 := s.b1.erase k, b2 := s.b2.erase k }

def remove : ARCCachePolicy κ :=
  if k ∈ s.t1.keys then { s with t1 := s.t1.erase k } else { s with t2 := s.t2.erase k }

/-- The step of the target on a ghost hit: at least one, more when the other ghost
list is longer. -/
def delta (other own : OrderedDict κ PUnit) : ℚ :=
  max 1 (F.fl ((other.entries.length : ℚ) / own.entries.length))

def touchKey (k : κ) : ARCCachePolicy κ :=
  match s.t1.get? k with
  | some b =>
    -- a block that was just prepared to be stored stays in T1
    if ¬ b.isReady then { s with t1 := (s.t1.erase k).set k b }
    else { s with t1 := s.t1.erase k, t2 := s.t2.set k b }
  | none =>
    if k ∈ s.t2.keys then { s with t2 := s.t2.moveToEnd k }
    else if k ∈ s.b1.keys then
      { s with
        targetT1Size := min (F.fl (s.targetT1Size + delta F s.b2 s.b1)) s.cacheCapacity
        b1 := s.b1.moveToEnd k }
    else if k ∈ s.b2.keys then
      { s with
        targetT1Size := max (F.fl (s.targetT1Size - delta F s.b1 s.b2)) 0
        b2 := s.b2.moveToEnd k }
    else s

def touch (ks : List κ) (s : ARCCachePolicy κ) : ARCCachePolicy κ :=
  ks.reverse.foldl (touchKey F) s

/-- The next idle block outside `shielded`, and what is left of the iterator. -/
def nextCandidate (shielded : List κ) :
    List (κ × BlockStatus) → Option (κ × BlockStatus) × List (κ × BlockStatus)
  | [] => (none, [])
  | e :: rest =>
    if e.2.refCnt = 0 ∧ e.1 ∉ shielded then (some e, rest) else nextCandidate shielded rest

/-- The candidates with the list each comes from (`true` for T1), chosen on a simulated
size of T1. -/
def candidates (target : ℤ) (shielded : List κ) :
    ℕ → ℤ → List (κ × BlockStatus) → List (κ × BlockStatus) →
      Option (List ((κ × BlockStatus) × Bool))
  | 0, _, _, _ => some []
  | n + 1, virtualT1Size, it1, it2 =>
    let (entry, it1) := if target ≤ virtualT1Size then nextCandidate shielded it1 else (none, it1)
    match entry with
    | some e => (candidates target shielded n (virtualT1Size - 1) it1 it2).map ((e, true) :: ·)
    | none =>
      match nextCandidate shielded it2 with
      | (none, _) => none
      | (some e, it2) => (candidates target shielded n virtualT1Size it1 it2).map ((e, false) :: ·)

def evictOne (c : (κ × BlockStatus) × Bool) : ARCCachePolicy κ :=
  if c.2 then { s with t1 := s.t1.erase c.1.1, b1 := s.b1.set c.1.1 ⟨⟩ }
  else { s with t2 := s.t2.erase c.1.1, b2 := s.b2.set c.1.1 ⟨⟩ }

def trimGhosts : ARCCachePolicy κ :=
  { s with
    b1 := s.b1.dropFirst (s.b1.entries.length - s.cacheCapacity)
    b2 := s.b2.dropFirst (s.b2.entries.length - s.cacheCapacity) }

def evict (n : ℕ) (shielded : List κ) :
    EStateM Failure (ARCCachePolicy κ) (Option (List (κ × BlockStatus))) := do
  let s ← EStateM.get
  if n = 0 then return some []
  match candidates (truncate s.targetT1Size) shielded n s.t1.entries.length
      s.t1.entries s.t2.entries with
  | none => return none
  | some chosen =>
    set (chosen.foldl evictOne s).trimGhosts
    return some (chosen.map Prod.fst)

end ARCCachePolicy

def arc (F : FloatRounding) : CachePolicy κ (ARCCachePolicy κ) where
  init cacheCapacity := ⟨cacheCapacity, 0, .empty, .empty, .empty, .empty⟩
  get := ARCCachePolicy.get
  setRefCnt k r s :=
    { s with
      t1 := s.t1.adjust k fun b => { b with refCnt := r }
      t2 := s.t2.adjust k fun b => { b with refCnt := r } }
  insert := ARCCachePolicy.insert
  remove k := modify (ARCCachePolicy.remove k)
  touch := ARCCachePolicy.touch F
  evict := ARCCachePolicy.evict
  clear s := ⟨s.cacheCapacity, 0, .empty, .empty, .empty, .empty⟩
  markEvictable _ s := s
  markNonEvictable _ := pure ⟨⟩

end Vllm.Offload
