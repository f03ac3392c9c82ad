import Vllm.CacheManagers

/-!
The private ring of the DFlash drafter. Every request slot owns `ringSize` pages
of the draft cache; logical block `k` of its request lies in page `k % ringSize`.
One propose writes the context rows of the step and then its query rows through
the same synthesized table, so a position can be overwritten by a later one a
whole ring ahead, and never before the window of the drafter has left it.
-/
namespace Vllm.DraftRing

open CacheManagers List Function

/-- The sizes the ring is built from. The block table is as wide as the longest
request. -/
structure RingConfig where
  blockSize : ℕ
  numQueryPerReq : ℕ
  slidingWindow : ℕ
  extraRetainedTokens : ℕ
  maxNumBatchedTokens : ℕ
  concurrentBatches : ℕ
  maxModelLen : ℕ
  blockTableStride : ℕ
  block_pos : 0 < blockSize
  window_pos : 0 < slidingWindow
  query_le_block : numQueryPerReq ≤ blockSize
  batches_pos : 0 < concurrentBatches
  table_covers : maxModelLen ≤ blockTableStride * blockSize

namespace RingConfig

variable (cfg : RingConfig)

def maxAdmissionBlocksPerRequest (maxInFlightTokens maxModelLen : ℕ) : ℕ :=
  cdiv (min (cfg.slidingWindow - 1 + cfg.extraRetainedTokens + maxInFlightTokens) maxModelLen)
    cfg.blockSize + 1

def ringSize : ℕ :=
  cfg.maxAdmissionBlocksPerRequest (cfg.concurrentBatches * cfg.maxNumBatchedTokens)
    cfg.maxModelLen + 1

/-- One entry of the row that `_synthesize_draft_ring_block_tables_kernel` stores. -/
def synthesizeDraftRingBlockTables (reqStateIdx seqLen offset : ℕ) : ℕ :=
  if offset < cdiv (seqLen + cfg.numQueryPerReq) cfg.blockSize then
    1 + reqStateIdx * cfg.ringSize + offset % cfg.ringSize
  else 0

/-- The slot of a position in `_prepare_dflash_inputs_kernel`, without context
parallelism. No slot is `PAD_SLOT_ID`: the null block is never written. -/
def slotOf (reqStateIdx seqLen pos : ℕ) : Option ℕ :=
  let blockNum := min (pos / cfg.blockSize) (cfg.blockTableStride - 1)
  let blockId := cfg.synthesizeDraftRingBlockTables reqStateIdx seqLen blockNum
  if blockId = 0 then none else some (blockId * cfg.blockSize + pos % cfg.blockSize)

end RingConfig

/-- The insertion of context rows, or the query rows of one propose. -/
inductive Role where
  | context
  | query (propose : ℕ)
  deriving DecidableEq, Repr

structure Write where
  admission : ℕ
  position : ℕ
  role : Role
  deriving DecidableEq, Repr

/-- A request in its slot: which admission it is, the prefix hit and the tokens
it was admitted with, and the tokens computed since. -/
structure Request where
  admission : ℕ
  hit : ℕ
  numTokens : ℕ
  numComputedTokens : ℕ
  deriving DecidableEq, Repr

structure DraftState where
  requests : ℕ → Option Request
  kv : ℕ → Option Write
  admissions : ℕ
  proposes : ℕ

def DraftState.start : DraftState := ⟨fun _ => none, fun _ => none, 0, 0⟩

/-- A request of the batch: its rows of the target step, and how many of them
were rejected. -/
structure Row where
  reqStateIdx : ℕ
  request : Request
  numCtx : ℕ
  numRejected : ℕ
  sampled : Bool
  deriving DecidableEq, Repr

namespace Row

variable (row : Row)

def seqLen : ℕ := row.request.numComputedTokens + row.numCtx

def queryStart : ℕ := row.request.numComputedTokens + (row.numCtx - row.numRejected)

variable (cfg : RingConfig)

def writes (role : Role) (first count : ℕ) : List (Option ℕ × Write) :=
  (List.range count).map fun j =>
    (cfg.slotOf row.reqStateIdx row.seqLen (first + j), ⟨row.request.admission, first + j, role⟩)

def contextWrites : List (Option ℕ × Write) :=
  -- The context rows. The rejected ones have `PAD_SLOT_ID` and write nothing.
  row.writes cfg .context row.request.numComputedTokens (row.numCtx - row.numRejected)

def queryWrites (propose : ℕ) : List (Option ℕ × Write) :=
  row.writes cfg (.query propose) row.queryStart cfg.numQueryPerReq

end Row

def storeAll (kv : ℕ → Option Write) (ws : List (Option ℕ × Write)) : ℕ → Option Write :=
  ws.foldl (fun kv e => e.1.elim kv fun slot => Function.update kv slot (some e.2)) kv

def advance (requests : ℕ → Option Request) (row : Row) : ℕ → Option Request :=
  Function.update requests row.reqStateIdx
    (some { row.request with numComputedTokens := row.queryStart })

namespace DraftState

variable (cfg : RingConfig) (s : DraftState)

def addRequest (idx hit numTokens : ℕ) : DraftState :=
  { s with
    requests := Function.update s.requests idx (some ⟨s.admissions, hit, numTokens, hit⟩)
    admissions := s.admissions + 1 }

def release (idx : ℕ) : DraftState :=
  { s with requests := Function.update s.requests idx none }

def propose (rows : List Row) : DraftState :=
  { s with
    requests := rows.foldl advance s.requests
    kv := storeAll (storeAll s.kv (rows.flatMap fun row => row.contextWrites cfg))
      (rows.flatMap fun row => row.queryWrites cfg s.proposes)
    proposes := s.proposes + 1 }

end DraftState

/-- What the runner hands to one propose. A step samples a token of a request
only when it reached the end of the tokens the request was admitted with. -/
structure Row.Fits (cfg : RingConfig) (s : DraftState) (row : Row) : Prop where
  held : s.requests row.reqStateIdx = some row.request
  batched : row.numCtx ≤ cfg.maxNumBatchedTokens
  rejected : row.numRejected < row.numCtx
  reached : row.sampled = true → row.request.numTokens ≤ row.queryStart

/-- The prefix hit leaves the window of the drafter to be computed. -/
def HitFits (cfg : RingConfig) (hit numTokens : ℕ) : Prop :=
  hit = 0 ∨ hit + 1 + cfg.slidingWindow ≤ numTokens

inductive Step (cfg : RingConfig) (s : DraftState) : DraftState → Prop where
  | addRequest {idx hit numTokens : ℕ} (hfree : s.requests idx = none)
      (hhit : HitFits cfg hit numTokens) : Step cfg s (s.addRequest idx hit numTokens)
  | release (idx : ℕ) : Step cfg s (s.release idx)
  | propose {rows : List Row} (hfits : ∀ row ∈ rows, row.Fits cfg s)
      (hdistinct : (rows.map Row.reqStateIdx).Nodup) : Step cfg s (s.propose cfg rows)

def Reachable (cfg : RingConfig) : DraftState → Prop :=
  Relation.ReflTransGen (Step cfg) .start

/-! ### Slots of the ring -/

section
variable (cfg : RingConfig)

def RingConfig.ringSlots : ℕ := cfg.ringSize * cfg.blockSize

def RingConfig.ringSlot (idx pos : ℕ) : ℕ :=
  cfg.blockSize + idx * cfg.ringSlots + pos % cfg.ringSlots

theorem ringSlots_pos : 0 < cfg.ringSlots :=
  Nat.mul_pos (Nat.succ_pos _) cfg.block_pos

/-- The ring holds the window and a batch, or a whole request, and two blocks. -/
theorem le_ringSlots :
    min (cfg.slidingWindow - 1 + cfg.maxNumBatchedTokens) cfg.maxModelLen + 2 * cfg.blockSize ≤
      cfg.ringSlots := by
  set tokens := min (cfg.slidingWindow - 1 + cfg.extraRetainedTokens +
    cfg.concurrentBatches * cfg.maxNumBatchedTokens) cfg.maxModelLen with htokens
  have hcover := le_cdiv_mul tokens cfg.block_pos
  have hbatch : cfg.maxNumBatchedTokens ≤ cfg.concurrentBatches * cfg.maxNumBatchedTokens :=
    Nat.le_mul_of_pos_left _ cfg.batches_pos
  have hring : cfg.ringSlots = cdiv tokens cfg.blockSize * cfg.blockSize + 2 * cfg.blockSize := by
    rw [RingConfig.ringSlots, RingConfig.ringSize, RingConfig.maxAdmissionBlocksPerRequest,
      ← htokens, Nat.add_assoc, Nat.add_mul]
  omega

theorem page_slot (idx block pos : ℕ) :
    (1 + idx * cfg.ringSize + block % cfg.ringSize) * cfg.blockSize + pos % cfg.blockSize =
      cfg.blockSize + idx * cfg.ringSlots +
        (pos % cfg.blockSize + cfg.blockSize * (block % cfg.ringSize)) := by
  rw [RingConfig.ringSlots]
  ring

variable {cfg} {i j seqLen pos a : ℕ}

/-- A position below the model length lies at its place in the ring. -/
theorem slotOf_eq_ringSlot (hlen : pos < seqLen + cfg.numQueryPerReq)
    (hmax : pos < cfg.maxModelLen) :
    cfg.slotOf i seqLen pos = some (cfg.ringSlot i pos) := by
  have hstride : pos / cfg.blockSize < cfg.blockTableStride :=
    (Nat.div_lt_iff_lt_mul cfg.block_pos).mpr (hmax.trans_le cfg.table_covers)
  have hblock : pos / cfg.blockSize < cdiv (seqLen + cfg.numQueryPerReq) cfg.blockSize :=
    (Nat.div_lt_iff_lt_mul cfg.block_pos).mpr (hlen.trans_le (le_cdiv_mul _ cfg.block_pos))
  have hmin : min (pos / cfg.blockSize) (cfg.blockTableStride - 1) = pos / cfg.blockSize := by
    omega
  dsimp only [RingConfig.slotOf]
  rw [hmin, RingConfig.synthesizeDraftRingBlockTables, if_pos hblock, if_neg (by omega),
    page_slot, RingConfig.ringSlot, RingConfig.ringSlots, Nat.mul_comm cfg.ringSize, Nat.mod_mul]

/-- Whatever the table gives for a request lies in the ring of its slot. -/
theorem slotOf_mem_ring (h : cfg.slotOf i seqLen pos = some a) :
    ∃ offset < cfg.ringSlots, a = cfg.blockSize + i * cfg.ringSlots + offset := by
  dsimp only [RingConfig.slotOf, RingConfig.synthesizeDraftRingBlockTables] at h
  split_ifs at h with hblock hnull hnull
  · cases h
    set block := min (pos / cfg.blockSize) (cfg.blockTableStride - 1)
    refine ⟨_, ?_, page_slot cfg i block pos⟩
    have hpage : block % cfg.ringSize < cfg.ringSize := Nat.mod_lt _ (Nat.succ_pos _)
    have hoffset := Nat.mod_lt pos cfg.block_pos
    calc pos % cfg.blockSize + cfg.blockSize * (block % cfg.ringSize)
        < cfg.blockSize + cfg.blockSize * (block % cfg.ringSize) := by omega
      _ = cfg.blockSize * (block % cfg.ringSize + 1) := by ring
      _ ≤ cfg.blockSize * cfg.ringSize := Nat.mul_le_mul_left _ hpage
      _ = cfg.ringSlots := Nat.mul_comm _ _
  · exact absurd rfl hnull

/-- A slot tells the ring it belongs to, so rings of different requests are disjoint. -/
theorem idx_of_slotOf (h : cfg.slotOf i seqLen pos = some a) {offset : ℕ}
    (hoffset : offset < cfg.ringSlots) (ha : a = cfg.blockSize + j * cfg.ringSlots + offset) :
    i = j := by
  obtain ⟨offset', hoffset', ha'⟩ := slotOf_mem_ring h
  have hsame : offset' + i * cfg.ringSlots = offset + j * cfg.ringSlots := by omega
  have hdiv := congrArg (· / cfg.ringSlots) hsame
  simpa [Nat.add_mul_div_right, ringSlots_pos, Nat.div_eq_of_lt hoffset,
    Nat.div_eq_of_lt hoffset'] using hdiv

/-- Positions of one ring less than a revolution apart have slots of their own. -/
theorem ringSlot_inj {p p' : ℕ} (h : cfg.ringSlot i p = cfg.ringSlot i p')
    (hbelow : p < p' + cfg.ringSlots) (habove : p' < p + cfg.ringSlots) : p = p' := by
  have hmod : p % cfg.ringSlots = p' % cfg.ringSlots := Nat.add_left_cancel h
  have hzero := Nat.sub_mod_eq_zero_of_mod_eq hmod
  have hzero' := Nat.sub_mod_eq_zero_of_mod_eq hmod.symm
  rw [Nat.mod_eq_of_lt (by omega)] at hzero hzero'
  omega
end

/-! ### What one propose writes -/

section
variable {kv : ℕ → Option Write} {ws : List (Option ℕ × Write)} {a : ℕ} {w : Write}

theorem storeAll_of_forall_ne (h : ∀ e ∈ ws, e.1 ≠ some a) : storeAll kv ws a = kv a := by
  induction ws generalizing kv with
  | nil => rfl
  | cons e ws ih =>
    obtain ⟨slot, w⟩ := e
    refine (ih fun e he => h e (mem_cons_of_mem _ he)).trans ?_
    cases slot with
    | none => rfl
    | some slot =>
      have hne : a ≠ slot := fun heq => h _ mem_cons_self (heq ▸ rfl)
      exact update_of_ne hne _ _

/-- A slot written for one position only holds it, in whatever order the rows
are stored. -/
theorem storeAll_of_mem (hmem : (some a, w) ∈ ws) (honly : ∀ e ∈ ws, e.1 = some a → e.2 = w) :
    storeAll kv ws a = some w := by
  induction ws generalizing kv with
  | nil => cases hmem
  | cons e ws ih =>
    have honly' : ∀ e ∈ ws, e.1 = some a → e.2 = w := fun e he =>
      honly e (mem_cons_of_mem _ he)
    by_cases hlater : (some a, w) ∈ ws
    · exact ih hlater honly'
    · obtain rfl : (some a, w) = e := by simpa [hlater] using hmem
      change storeAll (Function.update kv a (some w)) ws a = some w
      rw [storeAll_of_forall_ne fun e he hslot => hlater ?_, update_self]
      rwa [← hslot, ← honly' e he hslot]
end

section
variable {cfg : RingConfig} {s : DraftState} {rows : List Row} {row row' : Row} {p p' : ℕ}

def Row.Below (cfg : RingConfig) (row : Row) : Prop :=
  row.queryStart + cfg.numQueryPerReq ≤ cfg.maxModelLen

def Row.Writes (cfg : RingConfig) (row : Row) (p : ℕ) : Prop :=
  row.request.numComputedTokens ≤ p ∧ p < row.queryStart + cfg.numQueryPerReq

theorem mem_writes {role : Role} {first count : ℕ} {e : Option ℕ × Write} :
    e ∈ row.writes cfg role first count ↔ ∃ p, first ≤ p ∧ p < first + count ∧
      e = (cfg.slotOf row.reqStateIdx row.seqLen p, ⟨row.request.admission, p, role⟩) := by
  simp only [Row.writes, mem_map, mem_range]
  constructor
  · rintro ⟨j, hj, rfl⟩
    exact ⟨first + j, by omega, by omega, rfl⟩
  · rintro ⟨p, hfirst, hlast, rfl⟩
    exact ⟨p - first, by omega, by rw [Nat.add_sub_cancel' hfirst]⟩

theorem Row.Below.slotOf (hbelow : row.Below cfg) (hp : row.Writes cfg p) :
    cfg.slotOf row.reqStateIdx row.seqLen p = some (cfg.ringSlot row.reqStateIdx p) := by
  have hlast := hp.2
  unfold Row.Below at hbelow
  refine slotOf_eq_ringSlot (hlast.trans_le ?_) (by omega)
  unfold Row.queryStart Row.seqLen
  omega

/-- All that one propose writes for a row fits in one turn of the ring. -/
theorem Row.Fits.writes_close (hfits : row.Fits cfg s) (hbelow : row.Below cfg)
    (hp : row.Writes cfg p) (hp' : row.Writes cfg p') : p < p' + cfg.ringSlots := by
  have hring := le_ringSlots cfg
  have hbatched := hfits.batched
  have hquery := cfg.query_le_block
  unfold Row.Below Row.queryStart at hbelow
  unfold Row.Writes Row.queryStart at hp hp'
  omega

theorem same_row (hdistinct : (rows.map Row.reqStateIdx).Nodup) (hrow : row ∈ rows)
    (hrow' : row' ∈ rows)
    (hslot : cfg.slotOf row'.reqStateIdx row'.seqLen p' = some (cfg.ringSlot row.reqStateIdx p)) :
    row' = row := by
  have hidx := idx_of_slotOf hslot (Nat.mod_lt p (ringSlots_pos cfg)) rfl
  exact inj_on_of_nodup_map hdistinct hrow' hrow hidx

/-- Two positions with one slot, the first of a row below the model length. -/
theorem same_position (hfits : row.Fits cfg s) (hbelow : row.Below cfg)
    (hdistinct : (rows.map Row.reqStateIdx).Nodup) (hrow : row ∈ rows) (hrow' : row' ∈ rows)
    (hp : row.Writes cfg p) (hp' : row'.Writes cfg p')
    (hslot : cfg.slotOf row'.reqStateIdx row'.seqLen p' = some (cfg.ringSlot row.reqStateIdx p)) :
    row' = row ∧ p' = p := by
  obtain rfl := same_row hdistinct hrow hrow' hslot
  rw [hbelow.slotOf hp', Option.some.injEq] at hslot
  exact ⟨rfl, ringSlot_inj hslot (hfits.writes_close hbelow hp' hp)
    (hfits.writes_close hbelow hp hp')⟩

theorem kv_propose_of_forall_ne {idx : ℕ} (hidle : ∀ row ∈ rows, row.reqStateIdx ≠ idx) :
    (s.propose cfg rows).kv (cfg.ringSlot idx p) = s.kv (cfg.ringSlot idx p) := by
  have hother {role : Role} {first count : ℕ} {row : Row} (hrow : row ∈ rows) :
      ∀ e ∈ row.writes cfg role first count, e.1 ≠ some (cfg.ringSlot idx p) := by
    intro e he hslot
    obtain ⟨p', -, -, rfl⟩ := mem_writes.mp he
    exact hidle row hrow (idx_of_slotOf hslot (Nat.mod_lt p (ringSlots_pos cfg)) rfl)
  refine (storeAll_of_forall_ne fun e he => ?_).trans (storeAll_of_forall_ne fun e he => ?_)
  · obtain ⟨row, hrow, he⟩ := mem_flatMap.mp he
    exact hother hrow e he
  · obtain ⟨row, hrow, he⟩ := mem_flatMap.mp he
    exact hother hrow e he

section
variable (hfits : row.Fits cfg s) (hbelow : row.Below cfg)
  (hdistinct : (rows.map Row.reqStateIdx).Nodup) (hrow : row ∈ rows)

include hfits hbelow hdistinct hrow

/-- The queries of a propose are in their slots when it ends. -/
theorem kv_propose_query (hstart : row.queryStart ≤ p)
    (hlast : p < row.queryStart + cfg.numQueryPerReq) :
    (s.propose cfg rows).kv (cfg.ringSlot row.reqStateIdx p) =
      some ⟨row.request.admission, p, .query s.proposes⟩ := by
  have hp : row.Writes cfg p := ⟨(Nat.le_add_right _ _).trans hstart, hlast⟩
  refine storeAll_of_mem (mem_flatMap.mpr ⟨row, hrow, ?_⟩) fun e he hslot => ?_
  · exact mem_writes.mpr ⟨p, hstart, hlast, by rw [hbelow.slotOf hp]⟩
  · obtain ⟨row', hrow', he⟩ := mem_flatMap.mp he
    obtain ⟨p', hstart', hlast', rfl⟩ := mem_writes.mp he
    obtain ⟨rfl, rfl⟩ := same_position hfits hbelow hdistinct hrow hrow' hp
      ⟨(Nat.le_add_right _ _).trans hstart', hlast'⟩ hslot
    rfl

/-- The queries stay clear of the positions less than a revolution behind them. -/
theorem kv_propose_behind (hbehind : p < row.queryStart)
    (hring : row.queryStart + cfg.numQueryPerReq ≤ p + cfg.ringSlots) :
    (s.propose cfg rows).kv (cfg.ringSlot row.reqStateIdx p) =
      storeAll s.kv (rows.flatMap fun row => row.contextWrites cfg)
        (cfg.ringSlot row.reqStateIdx p) := by
  refine storeAll_of_forall_ne fun e he hslot => ?_
  obtain ⟨row', hrow', he⟩ := mem_flatMap.mp he
  obtain ⟨p', hstart', hlast', rfl⟩ := mem_writes.mp he
  obtain rfl := same_row hdistinct hrow hrow' hslot
  rw [hbelow.slotOf ⟨(Nat.le_add_right _ _).trans hstart', hlast'⟩, Option.some.injEq] at hslot
  have hsame := ringSlot_inj hslot (by omega) (by omega)
  omega

/-- A context row survives the propose that writes it if the queries do not come round to its slot.
-/
theorem kv_propose_context (hfirst : row.request.numComputedTokens ≤ p)
    (hbehind : p < row.queryStart)
    (hring : row.queryStart + cfg.numQueryPerReq ≤ p + cfg.ringSlots) :
    (s.propose cfg rows).kv (cfg.ringSlot row.reqStateIdx p) =
      some ⟨row.request.admission, p, .context⟩ := by
  have hp : row.Writes cfg p := ⟨hfirst, hbehind.trans_le (Nat.le_add_right _ _)⟩
  rw [kv_propose_behind hfits hbelow hdistinct hrow hbehind hring]
  refine storeAll_of_mem (mem_flatMap.mpr ⟨row, hrow, ?_⟩) fun e he hslot => ?_
  · exact mem_writes.mpr ⟨p, hfirst, hbehind, by rw [hbelow.slotOf hp]⟩
  · obtain ⟨row', hrow', he⟩ := mem_flatMap.mp he
    obtain ⟨p', hfirst', hlast', rfl⟩ := mem_writes.mp he
    obtain ⟨rfl, rfl⟩ := same_position hfits hbelow hdistinct hrow hrow' hp
      ⟨hfirst', hlast'.trans_le (Nat.le_add_right _ _)⟩ hslot
    rfl

/-- An older position survives a propose whose queries do not come round to its slot. -/
theorem kv_propose_older (holder : p < row.request.numComputedTokens)
    (hring : row.queryStart + cfg.numQueryPerReq ≤ p + cfg.ringSlots) :
    (s.propose cfg rows).kv (cfg.ringSlot row.reqStateIdx p) =
      s.kv (cfg.ringSlot row.reqStateIdx p) := by
  have hbehind : p < row.queryStart := holder.trans_le (Nat.le_add_right _ _)
  rw [kv_propose_behind hfits hbelow hdistinct hrow hbehind hring]
  refine storeAll_of_forall_ne fun e he hslot => ?_
  obtain ⟨row', hrow', he⟩ := mem_flatMap.mp he
  obtain ⟨p', hfirst', hlast', rfl⟩ := mem_writes.mp he
  have hwrites : row'.Writes cfg p' := ⟨hfirst', hlast'.trans_le (Nat.le_add_right _ _)⟩
  obtain rfl := same_row hdistinct hrow hrow' hslot
  have hlast := hwrites.2
  rw [hbelow.slotOf hwrites, Option.some.injEq] at hslot
  have hsame := ringSlot_inj hslot (by omega) (by omega)
  omega
end

end

/-! ### Runs -/

variable {cfg : RingConfig} {s : DraftState} {rows : List Row} {idx : ℕ} {q : Request}

/-- The computed positions of a request that its next queries cannot reach hold
its own context, as long as there is room for queries. -/
structure Kept (cfg : RingConfig) (s : DraftState) (idx : ℕ) (q : Request) : Prop where
  hit : HitFits cfg q.hit q.numTokens
  context : q.numComputedTokens + cfg.numQueryPerReq ≤ cfg.maxModelLen →
    ∀ p, q.hit ≤ p → p < q.numComputedTokens →
      q.numComputedTokens + cfg.numQueryPerReq ≤ p + cfg.ringSlots →
      s.kv (cfg.ringSlot idx p) = some ⟨q.admission, p, .context⟩

def AllKept (cfg : RingConfig) (s : DraftState) : Prop :=
  ∀ idx q, s.requests idx = some q → Kept cfg s idx q

theorem requests_propose (hq : (s.propose cfg rows).requests idx = some q) :
    (∃ row ∈ rows, row.reqStateIdx = idx ∧
        q = { row.request with numComputedTokens := row.queryStart }) ∨
      (∀ row ∈ rows, row.reqStateIdx ≠ idx) ∧ s.requests idx = some q := by
  suffices h : ∀ requests, rows.foldl advance requests idx = some q →
      (∃ row ∈ rows, row.reqStateIdx = idx ∧
          q = { row.request with numComputedTokens := row.queryStart }) ∨
        (∀ row ∈ rows, row.reqStateIdx ≠ idx) ∧ requests idx = some q from h _ hq
  clear hq
  induction rows with
  | nil => exact fun _ hq => .inr ⟨fun _ hmem => absurd hmem not_mem_nil, hq⟩
  | cons row rows ih =>
    intro requests hq
    rcases ih _ hq with ⟨row', hrow', h⟩ | ⟨hidle, hq⟩
    · exact .inl ⟨row', mem_cons_of_mem _ hrow', h⟩
    · by_cases hidx : row.reqStateIdx = idx
      · subst hidx
        rw [advance, update_self, Option.some.injEq] at hq
        exact .inl ⟨row, mem_cons_self, rfl, hq.symm⟩
      · rw [advance, update_of_ne (Ne.symm hidx)] at hq
        exact .inr ⟨forall_mem_cons.mpr ⟨hidx, hidle⟩, hq⟩

theorem AllKept.kv_propose (h : AllKept cfg s) {row : Row} (hfits : row.Fits cfg s)
    (hbelow : row.Below cfg) (hdistinct : (rows.map Row.reqStateIdx).Nodup) (hrow : row ∈ rows)
    {p : ℕ} (hhit : row.request.hit ≤ p) (hbehind : p < row.queryStart)
    (hring : row.queryStart + cfg.numQueryPerReq ≤ p + cfg.ringSlots) :
    (s.propose cfg rows).kv (cfg.ringSlot row.reqStateIdx p) =
      some ⟨row.request.admission, p, .context⟩ := by
  rcases Nat.lt_or_ge p row.request.numComputedTokens with holder | hfirst
  · rw [kv_propose_older hfits hbelow hdistinct hrow holder hring]
    have hgrows : row.request.numComputedTokens ≤ row.queryStart := Nat.le_add_right _ _
    unfold Row.Below at hbelow
    exact (h _ _ hfits.held).context (by omega) p hhit holder (by omega)
  · exact kv_propose_context hfits hbelow hdistinct hrow hfirst hbehind hring

/-- One propose keeps the computed positions that the next queries cannot reach. -/
theorem AllKept.propose (h : AllKept cfg s) (hfits : ∀ row ∈ rows, row.Fits cfg s)
    (hdistinct : (rows.map Row.reqStateIdx).Nodup) : AllKept cfg (s.propose cfg rows) := by
  intro idx q hq
  obtain ⟨row, hrow, rfl, rfl⟩ | ⟨hidle, hq⟩ := requests_propose hq
  · exact ⟨(h _ _ (hfits row hrow).held).hit, fun hbelow p hhit hbehind hring =>
      h.kv_propose (hfits row hrow) hbelow hdistinct hrow hhit hbehind hring⟩
  · have hkept := h _ _ hq
    refine ⟨hkept.hit, fun hroom p hhit hbehind hring => ?_⟩
    rw [kv_propose_of_forall_ne hidle]
    exact hkept.context hroom p hhit hbehind hring

/-- Admission writes nothing, and its request has no computed position behind the hit yet. -/
theorem AllKept.step {s' : DraftState} (h : AllKept cfg s) (hstep : Step cfg s s') :
    AllKept cfg s' := by
  cases hstep with
  | @addRequest taken hit numTokens hfree hhit =>
    intro idx q hq
    by_cases hidx : idx = taken
    · subst hidx
      simp only [DraftState.addRequest, update_self, Option.some.injEq] at hq
      subst hq
      exact ⟨hhit, fun _ p hle hlt => absurd hle (Nat.not_le.mpr hlt)⟩
    · simp only [DraftState.addRequest, update_of_ne hidx] at hq
      exact { h _ _ hq with }
  | release released =>
    intro idx q hq
    by_cases hidx : idx = released
    · simp [DraftState.release, hidx] at hq
    · simp only [DraftState.release, update_of_ne hidx] at hq
      exact { h _ _ hq with }
  | propose hfits hdistinct => exact h.propose hfits hdistinct

/-- In every reachable state the computed positions that the next queries cannot reach are kept. -/
theorem Reachable.allKept (h : Reachable cfg s) : AllKept cfg s := by
  induction h with
  | refl => exact fun _ _ hq => nomatch hq
  | tail _ hstep ih => exact ih.step hstep

/-- The drafter reads what it should: when the step sampled a token and the
queries fit, every position a query attends to was last written for this
request since its admission, by the context insertion or by a query of this
propose; and a position of such a row shares its slot with no other position of
the batch. -/
theorem ring_serves_drafter (h : Reachable cfg s) (hfits : ∀ row ∈ rows, row.Fits cfg s)
    (hdistinct : (rows.map Row.reqStateIdx).Nodup) {row : Row} (hrow : row ∈ rows)
    (hbelow : row.queryStart + cfg.numQueryPerReq ≤ cfg.maxModelLen) :
    (row.sampled = true → ∀ query p, row.queryStart ≤ query →
        query < row.queryStart + cfg.numQueryPerReq → query + 1 ≤ p + cfg.slidingWindow →
        p < row.queryStart + cfg.numQueryPerReq →
      ∃ slot, cfg.slotOf row.reqStateIdx row.seqLen p = some slot ∧
        (s.propose cfg rows).kv slot = some ⟨row.request.admission, p,
          if p < row.queryStart then .context else .query s.proposes⟩) ∧
      ∀ row' ∈ rows, ∀ p p', row.Writes cfg p → row'.Writes cfg p' →
        cfg.slotOf row'.reqStateIdx row'.seqLen p' = cfg.slotOf row.reqStateIdx row.seqLen p →
        row' = row ∧ p' = p := by
  have hrowFits := hfits row hrow
  refine ⟨fun hsampled query p hquery _ hwindow hlast => ?_, fun row' hrow' p p' hp hp' hslot => ?_⟩
  · have hslot : cfg.slotOf row.reqStateIdx row.seqLen p = some (cfg.ringSlot row.reqStateIdx p) :=
      slotOf_eq_ringSlot (hlast.trans_le (by unfold Row.queryStart Row.seqLen; omega)) (by omega)
    refine ⟨_, hslot, ?_⟩
    split_ifs with hbehind
    · have hreached := hrowFits.reached hsampled
      have hring := le_ringSlots cfg
      have hblock := cfg.query_le_block
      have hhit : row.request.hit ≤ p := by
        rcases (h.allKept _ _ hrowFits.held).hit with hzero | hwindow <;> omega
      exact h.allKept.kv_propose hrowFits hbelow hdistinct hrow hhit hbehind (by omega)
    · exact kv_propose_query hrowFits hbelow hdistinct hrow (Nat.not_lt.mp hbehind) hlast
  · rw [Row.Below.slotOf hbelow hp] at hslot
    exact same_position hrowFits hbelow hdistinct hrow hrow' hp hp' hslot

/-- Blocks of two tokens, a window of three and two queries: a ring of ten slots. -/
def smallRing : RingConfig :=
  ⟨2, 2, 3, 0, 4, 1, 16, 8, by decide, by decide, by decide, by decide, by decide⟩

def smallRow (computed numCtx numRejected : ℕ) : Row :=
  ⟨0, ⟨0, 0, 3, computed⟩, numCtx, numRejected, true⟩

/-- The prompt and two rounds of drafts, one of which is rejected. -/
def smallRows : List Row := [smallRow 0 3 0, smallRow 3 3 1, smallRow 5 3 0]

def afterRows (rows : List Row) : DraftState :=
  rows.foldl (fun s row => s.propose smallRing [row]) (DraftState.start.addRequest 0 0 3)

theorem afterRows_step {rows : List Row} (computed numCtx numRejected : ℕ)
    (hreach : Reachable smallRing (afterRows rows))
    (hheld : (afterRows rows).requests 0 = some ⟨0, 0, 3, computed⟩) (hctx : numCtx ≤ 4)
    (hrejected : numRejected < numCtx) (hprompt : 3 ≤ computed + (numCtx - numRejected)) :
    (∀ row ∈ [smallRow computed numCtx numRejected], row.Fits smallRing (afterRows rows)) ∧
      Reachable smallRing (afterRows (rows ++ [smallRow computed numCtx numRejected])) := by
  have hfits : ∀ row ∈ [smallRow computed numCtx numRejected],
      row.Fits smallRing (afterRows rows) := by
    intro row hrow
    obtain rfl := mem_singleton.mp hrow
    exact ⟨hheld, hctx, hrejected, fun _ => hprompt⟩
  refine ⟨hfits, ?_⟩
  unfold afterRows
  rw [foldl_append]
  exact hreach.tail (.propose hfits (nodup_singleton _))

/-- The last step writes position 10 over position 0, and the queries find it. -/
theorem ring_serves_reused_page : ∃ slot, smallRing.slotOf 0 3 0 = some slot ∧
    smallRing.slotOf 0 11 10 = some slot ∧
      ((afterRows smallRows).propose smallRing [smallRow 8 3 0]).kv slot =
        some ⟨0, 10, .context⟩ := by
  have hadmitted : Reachable smallRing (afterRows []) := .single (.addRequest rfl (.inl rfl))
  obtain ⟨-, hprompt⟩ := afterRows_step 0 3 0 hadmitted rfl (by decide) (by decide) (by decide)
  obtain ⟨-, hrejected⟩ := afterRows_step 3 3 1 hprompt rfl (by decide) (by decide) (by decide)
  obtain ⟨-, hreach⟩ := afterRows_step 5 3 0 hrejected rfl (by decide) (by decide) (by decide)
  have hfits : ∀ row ∈ [smallRow 8 3 0], row.Fits smallRing (afterRows smallRows) :=
    (afterRows_step 8 3 0 hreach rfl (by decide) (by decide) (by decide)).1
  obtain ⟨slot, hslot, hkv⟩ := (ring_serves_drafter hreach hfits (nodup_singleton _)
    mem_cons_self (by decide)).1 rfl 11 10 (by decide) (by decide) (by decide) (by decide)
  exact ⟨slot, hslot, hslot, hkv⟩

end Vllm.DraftRing
