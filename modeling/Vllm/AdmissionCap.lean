import Vllm.SlotRuns

/-!
The admission cap of sliding-window and chunked-local groups. A request is
admitted when the blocks it can hold at one time fit, not its whole length, so
the cap has to bound what it holds in every state of a run.
-/
namespace Vllm.AdmissionCap

open Outcome CacheManagers KVCacheManager KVCacheRuns
open PoolFreeList NullBlock ManagerFrames ManagerPools PagedTables RecycledTables SlotRuns

variable {n m : ℕ}

/-- `max_admission_blocks_per_request` of the two recycling-aware specs. -/
def maxAdmissionBlocksPerRequest (kind : ManagerKind)
    (blockSize maxInFlightTokens maxModelLen : ℕ) : Option ℕ :=
  match kind with
  | .slidingWindow window extra =>
    some (cdiv (min (window - 1 + extra + maxInFlightTokens) maxModelLen) blockSize + 1)
  | .chunkedLocal chunk => some (cdiv (min (chunk + maxInFlightTokens) maxModelLen) blockSize)
  | _ => none

/-! ### The bound -/

/-- A table with at most `cap` held blocks, behind its null blocks. -/
def Capped (null : Fin n) (cap : ℕ) (blocks : List (Fin n)) : Prop :=
  ∃ j, Recycled null j blocks ∧ blocks.length ≤ j + cap

theorem Capped.heldBlocks_le {null : Fin n} {cap : ℕ} {blocks : List (Fin n)}
    (h : Capped null cap blocks) : heldBlocks null blocks ≤ cap := by
  obtain ⟨j, hrecycled, hlen⟩ := h
  rw [hrecycled.heldBlocks_eq]
  omega

/-- A capped table of length `len` without the blocks below `skipped`. -/
def CappedPast (null : Fin n) (cap len skipped : ℕ) (blocks : List (Fin n)) : Prop :=
  blocks.length = len ∧ ∃ j, Recycled null j blocks ∧ blocks.length ≤ j + cap ∧ min skipped len ≤ j

/-- A table of at most `len` blocks without the blocks below `skipped`. -/
def ShortPast (null : Fin n) (len skipped : ℕ) (blocks : List (Fin n)) : Prop :=
  blocks.length ≤ len ∧ ∃ j, skipped ≤ j ∧ Recycled null j blocks

/-- The slots past the processed tokens, those of steps in flight, of the new
chunk and of the drafter, are at most one more than the cap reckons with. A
chunk that does not start on a block boundary counts for its block. Where the
cap is the whole model length nothing is asked. -/
def LookaheadFits (v : VllmConfig) (cfg : Config m) (i : Fin m) (c : SlotCall n m) : Prop :=
  let processed := c.totalComputedTokens cfg - c.request.numInFlightTokens
  let pending := c.request.numInFlightTokens + c.numNewTokens + c.numLookaheadTokens
  match (cfg.groups i).kind with
  | .slidingWindow window extra =>
    pending ≤ v.maxInFlightTokens + 1 ∨ cfg.maxModelLen ≤ window - 1 + extra + v.maxInFlightTokens
  | .chunkedLocal chunk =>
    processed / chunk * chunk % (cfg.groups i).blockSize + pending ≤ v.maxInFlightTokens + 1 ∨
      cfg.maxModelLen ≤ chunk + v.maxInFlightTokens
  | _ => True

section
variable {v : VllmConfig} {cfg : Config m} {i : Fin m} {c : SlotCall n m} {cap : ℕ}

theorem recycles_of_cap {kind : ManagerKind} {blockSize maxInFlight maxLen : ℕ}
    (hcap : maxAdmissionBlocksPerRequest kind blockSize maxInFlight maxLen = some cap) :
    recycles kind := by
  cases kind <;> simp_all [maxAdmissionBlocksPerRequest, recycles]

/-- A call whose slots fit the window never needs more blocks past the skipped ones than the cap. -/
theorem needed_le_cap
    (hcap : maxAdmissionBlocksPerRequest (cfg.groups i).kind (cfg.groups i).blockSize
      v.maxInFlightTokens cfg.maxModelLen = some cap)
    (hchunk : ∀ chunk, (cfg.groups i).kind = .chunkedLocal chunk → 0 < chunk)
    (hfits : LookaheadFits v cfg i c) :
    cdiv (c.numTokensNeedSlot cfg) (cfg.groups i).blockSize ≤ (cfg.groups i).numSkippedBlocks
        (c.totalComputedTokens cfg - c.request.numInFlightTokens) + cap := by
  set processed := c.totalComputedTokens cfg - c.request.numInFlightTokens with hprocessed
  set pending := c.request.numInFlightTokens + c.numNewTokens + c.numLookaheadTokens with hpending
  have hneed : c.numTokensNeedSlot cfg ≤ processed + pending ∧
      c.numTokensNeedSlot cfg ≤ cfg.maxModelLen := by
    unfold SlotCall.numTokensNeedSlot SlotCall.numTokensMainModel
    omega
  have hbs := (cfg.groups i).blockSize_pos
  unfold LookaheadFits at hfits
  rw [cdiv_le_iff hbs]
  unfold ManagerConfig.numSkippedBlocks ManagerConfig.getNumSkippedTokens
  cases hkind : (cfg.groups i).kind with
  | slidingWindow window extra =>
    simp only [hkind, maxAdmissionBlocksPerRequest, Option.some.injEq] at hcap hfits ⊢
    subst hcap
    have hskip := Nat.lt_div_mul_add hbs (a := processed + 1 - window - extra)
    have hcover := le_cdiv_mul
      (min (window - 1 + extra + v.maxInFlightTokens) cfg.maxModelLen) hbs
    rw [Nat.add_mul, Nat.add_mul, Nat.one_mul]
    omega
  | chunkedLocal chunk =>
    simp only [hkind, maxAdmissionBlocksPerRequest, Option.some.injEq, ← hprocessed] at hcap hfits ⊢
    subst hcap
    have hstart := Nat.lt_div_mul_add (hchunk chunk hkind) (a := processed)
    have hoffset := Nat.div_add_mod' (processed / chunk * chunk) (cfg.groups i).blockSize
    have hcover := le_cdiv_mul (min (chunk + v.maxInFlightTokens) cfg.maxModelLen) hbs
    rw [Nat.add_mul]
    omega
  | fullAttention => simp [hkind, maxAdmissionBlocksPerRequest] at hcap
  | dflashRing window extra => simp [hkind, maxAdmissionBlocksPerRequest] at hcap
  | circularBuffer => simp [hkind, maxAdmissionBlocksPerRequest] at hcap
  | mamba spec => simp [hkind, maxAdmissionBlocksPerRequest] at hcap

variable {progress : RequestId → Progress} {null : Fin n}

/-! ### The stages of a call -/

section
variable {k : ManagerConfig} {r : RequestId} {g : Group n} {len skipped : ℕ}
  {hits : List (Fin n)} {numLocal numExternal : ℕ} (hk : isPaged k.kind)
include hk

/-- The removal takes the blocks below the window out of a capped table. -/
theorem removeSkippedBlocks_cappedPast (processed : ℕ)
    (hg : TableHas null r (fun blocks => blocks.length = len ∧ Capped null cap blocks) g) :
    Ensures (Manager.removeSkippedBlocks k r processed) g
      (fun _ t => TableHas null r (CappedPast null cap len (k.numSkippedBlocks processed)) t)
      (fun _ _ => True) := by
  obtain ⟨hapart, hlen, j, hrecycled, hcapped⟩ := hg
  rw [removeSkippedBlocks_eq hk]
  refine (removeSkippedBlocks_table _ ⟨hapart, hrecycled⟩).weaken ?_
  rintro _ t ⟨hapart', hlen', hrecycled'⟩
  rw [hlen] at hlen'
  refine ⟨hapart', hlen', _, hrecycled', ?_, ?_⟩
  · omega
  · rw [hlen']
    exact le_max_right _ _

/-- Attached hits have null blocks up to the skipped ones, so they stand for the window only. -/
theorem addLocalComputedBlocks_shortPast (hhits : NullsFirst null hits) (hlen : hits.length ≤ len)
    (hskip : k.numSkippedBlocks (numLocal + numExternal) ≤ len) (hg : Apart null g.pool) :
    Ensures (Manager.addLocalComputedBlocks k r hits numLocal numExternal) g
      (fun _ t => TableHas null r
        (ShortPast null len (k.numSkippedBlocks (numLocal + numExternal))) t)
      (fun _ _ => True) := by
  rw [addLocalComputedBlocks_eq hk]
  refine (addLocalComputedBlocks_table hhits hg).weaken ?_
  rintro _ t ⟨hapart, hlen', hrecycled⟩
  exact ⟨hapart, hlen'.trans_le (max_le hskip hlen), hrecycled⟩

theorem allocateExternalComputedBlocks_shortPast
    (hlen : cdiv (numLocal + numExternal) k.blockSize ≤ len)
    (hg : TableHas null r (ShortPast null len skipped) g) :
    Ensures (Manager.allocateExternalComputedBlocks k r numLocal numExternal) g
      (fun _ t => TableHas null r (ShortPast null len skipped) t) (fun _ _ => True) := by
  obtain ⟨hapart, hshort, j, hj, hrecycled⟩ := hg
  rw [allocateExternalComputedBlocks_eq hk]
  refine (allocateExternalComputedBlocks_table ⟨hapart, hrecycled⟩).weaken ?_
  rintro _ t ⟨hapart', hlen', hrecycled'⟩
  exact ⟨hapart', hlen'.trans (max_le hshort hlen), j, hj, hrecycled'⟩

/-- The new blocks of a running request, whose table covers the skipped blocks. -/
theorem allocateNewBlocks_capped_running {numTokens main : ℕ} (hskip : skipped ≤ len)
    (hg : TableHas null r (CappedPast null cap len skipped) g) :
    Ensures (Manager.allocateNewBlocks k r numTokens main) g
      (fun _ t => TableHas null r (fun blocks =>
        cdiv numTokens k.blockSize ≤ skipped + cap → Capped null cap blocks) t)
      (fun _ _ => True) := by
  obtain ⟨hapart, hlen, j, hrecycled, hcapped, hj⟩ := hg
  rw [allocateNewBlocks_eq hk]
  refine (allocateNewBlocks_table _ ⟨hapart, hrecycled⟩).weaken ?_
  rintro _ t ⟨hapart', hlen', hrecycled'⟩
  exact ⟨hapart', fun hneed => ⟨j, hrecycled', by omega⟩⟩

/-- The new blocks of a first allocation, behind the blocks of the computed tokens. -/
theorem allocateNewBlocks_capped_first {numTokens main processed : ℕ} (hskip : processed ≤ skipped)
    (hg : TableHas null r (ShortPast null (cdiv numTokens k.blockSize) skipped) g) :
    Ensures (Manager.allocateNewBlocks k r numTokens main) g
      (fun _ t => TableHas null r (fun blocks =>
        cdiv numTokens k.blockSize ≤ processed + cap → Capped null cap blocks) t)
      (fun _ _ => True) := by
  obtain ⟨hapart, hlen, j, hj, hrecycled⟩ := hg
  rw [allocateNewBlocks_eq hk]
  refine (allocateNewBlocks_table _ ⟨hapart, hrecycled⟩).weaken ?_
  rintro _ t ⟨hapart', hlen', hrecycled'⟩
  exact ⟨hapart', fun hneed => ⟨j, hrecycled', by omega⟩⟩

end

theorem numSkippedBlocks_le_of_le_mul {k : ManagerConfig} {numTokens len : ℕ}
    (h : numTokens ≤ len * k.blockSize) : k.numSkippedBlocks numTokens ≤ len := by
  refine Nat.div_le_of_le_mul ?_
  rw [Nat.mul_comm]
  exact (getNumSkippedTokens_le k numTokens).trans h

/-- The table of the request that the call is for. -/
theorem cap_stages (cap : ℕ) {len : ℕ} (hrecycles : recycles (cfg.groups i).kind)
    (hhits : NullsFirst null (c.newComputedBlockList i) ∧ (c.newComputedBlockList i).length ≤
      cdiv c.numNewComputedTokens (cfg.groups i).blockSize)
    (htotal : c.allComputedTokens ≤ cfg.maxModelLen)
    (hcover : c.numNewComputedTokens = 0 → c.numExternalComputedTokens = 0 →
      c.allComputedTokens ≤ len * (cfg.groups i).blockSize) :
    Stages NullKept NullKept cfg c i
      (TableHas null c.request.requestId fun blocks => blocks.length = len ∧ Capped null cap blocks)
      (TableHas null c.request.requestId (CappedPast null cap len ((cfg.groups i).numSkippedBlocks
        (c.totalComputedTokens cfg - c.request.numInFlightTokens))))
      (TableHas null c.request.requestId (CappedPast null cap len ((cfg.groups i).numSkippedBlocks
        (c.totalComputedTokens cfg - c.request.numInFlightTokens))))
      (TableHas null c.request.requestId (ShortPast null
        (cdiv (c.numTokensNeedSlot cfg) (cfg.groups i).blockSize)
        ((cfg.groups i).numSkippedBlocks c.allComputedTokens)))
      (TableHas null c.request.requestId fun blocks =>
        cdiv (c.numTokensNeedSlot cfg) (cfg.groups i).blockSize ≤ (cfg.groups i).numSkippedBlocks
            (c.totalComputedTokens cfg - c.request.numInFlightTokens) + cap →
        Capped null cap blocks) := by
  have hk := isPaged_of_recycles hrecycles
  have hall : c.allComputedTokens ≤ c.numTokensNeedSlot cfg ∧
      c.totalComputedTokens cfg = c.allComputedTokens := by
    unfold SlotCall.numTokensNeedSlot SlotCall.numTokensMainModel SlotCall.totalComputedTokens
    omega
  have hcdiv {a : ℕ} (ha : a ≤ c.allComputedTokens) : cdiv a (cfg.groups i).blockSize ≤
      cdiv (c.numTokensNeedSlot cfg) (cfg.groups i).blockSize :=
    Nat.div_le_div_right (by omega)
  have hnew : c.numNewComputedTokens ≤ c.allComputedTokens := by
    unfold SlotCall.allComputedTokens SlotCall.numLocalComputedTokens
    omega
  have hskip : (cfg.groups i).numSkippedBlocks c.allComputedTokens ≤
      cdiv c.allComputedTokens (cfg.groups i).blockSize :=
    numSkippedBlocks_le_of_le_mul (le_cdiv_mul _ (cfg.groups i).blockSize_pos)
  constructor
  case stableBefore => exact ⟨tableHas_stable, tableHas_stable, tableHas_stable⟩
  case stable => exact ⟨tableHas_stable, tableHas_stable, tableHas_stable⟩
  case fullSequence =>
    intro numTokens g t j hrun hg
    obtain rfl := (predict_same hk _ _ _ _ _ _ g).of_ok hrun
    exact hg
  case predict =>
    intro g t j hrun hg
    obtain rfl := (predict_same hk _ _ _ _ _ _ g).of_ok hrun
    exact hg
  case skip => exact fun g hg => removeSkippedBlocks_cappedPast hk _ hg
  case addLocal =>
    exact fun _ g hg => addLocalComputedBlocks_shortPast hk hhits.1 (hhits.2.trans (hcdiv hnew))
      (hskip.trans (hcdiv le_rfl)) hg.1
  case external => exact fun g hg => allocateExternalComputedBlocks_shortPast hk (hcdiv le_rfl) hg
  case running =>
    intro hlocal hexternal g hg
    have hcovered := hcover hlocal hexternal
    exact allocateNewBlocks_capped_running hk (numSkippedBlocks_le_of_le_mul (by omega)) hg
  case first =>
    exact fun g hg => allocateNewBlocks_capped_first hk (numSkippedBlocks_mono _ (by omega)) hg
  case cache =>
    intro numTokens g hg
    rw [cacheBlocks_eq hrecycles]
    exact cacheBlocks_table c.request numTokens _ _ hg

/-- What a call does to the table of its request: a successful one that fits
and a refused one keep it capped. -/
theorem call_capped {s t : CacheState n m} {Fits : CacheState n m → SlotCall n m → Prop}
    {taken : Bool} (hrecycles : recycles (cfg.groups i).kind) (hs : Run v cfg Fits s progress)
    (hc : Scheduled v cfg s progress c) (hrun : (allocateSlots cfg c).run s = .ok taken t)
    (hneed : taken → cdiv (c.numTokensNeedSlot cfg) (cfg.groups i).blockSize ≤
      (cfg.groups i).numSkippedBlocks
        (c.totalComputedTokens cfg - c.request.numInFlightTokens) + cap)
    (htable : TableHas null c.request.requestId (Capped null cap) (s.group i)) :
    TableHas null c.request.requestId (Capped null cap) (t.group i) := by
  have hfirst : c.numNewComputedTokens ≠ 0 ∨ c.numExternalComputedTokens ≠ 0 →
      ∀ j, (s.managers j).numCachedBlock c.request.requestId = none :=
    fun hpos j => (hc.firstTime hpos j).2
  obtain ⟨slots, hreach, hslots⟩ := hs.reachable
  have hpaged := (pagedInv_run.reachable hreach i (isPaged_of_recycles hrecycles)
    c.request.requestId).2
  have hcover : c.numNewComputedTokens = 0 → c.numExternalComputedTokens = 0 →
      c.allComputedTokens ≤ ((s.group i).manager.reqToBlocks c.request.requestId).length *
        (cfg.groups i).blockSize := by
    intro hlocal hexternal
    have hcomputed := (hc.promised hslots).computed
    unfold SlotCall.allComputedTokens SlotCall.numLocalComputedTokens
    rw [hlocal, hexternal]
    exact hcomputed.trans hpaged
  have hnull : s.pool.nullBlock = null := htable.1.2
  have hstages := cap_stages cap hrecycles (hnull ▸ hc.hits i) hc.total hcover
  have hend := (hstages.allocateSlots freeBlocks_nullKept nullKept_frame hc.noHits hfirst
    ⟨htable.1, rfl, htable.2⟩).of_ok hrun
  cases taken with
  | true => exact ⟨hend.1, hend.2 (hneed rfl)⟩
  | false =>
    rcases hend with ⟨hapart, -, hcapped⟩ | ⟨hapart, -, j, hrecycled, hcapped, -⟩
    · exact ⟨hapart, hcapped⟩
    · exact ⟨hapart, j, hrecycled, hcapped⟩

variable {s : CacheState n m} {progress : RequestId → Progress}
  (hcap : maxAdmissionBlocksPerRequest (cfg.groups i).kind (cfg.groups i).blockSize
    v.maxInFlightTokens cfg.maxModelLen = some cap)
  (hchunk : ∀ chunk, (cfg.groups i).kind = .chunkedLocal chunk → 0 < chunk)
  (h : Run v cfg (fun _ => LookaheadFits v cfg i) s progress)
include hcap hchunk h

/-- Along every run each table stays capped. -/
theorem run_capped (r : RequestId) : ∃ null, TableHas null r (Capped null cap) (s.group i) := by
  have hrecycles := recycles_of_cap hcap
  have hk := isPaged_of_recycles hrecycles
  refine h.entryHas (P := fun null e => Capped null cap e.blocks) ?_ ?_ ?_ ?_ ?_
  · exact fun _ => ⟨0, ⟨[], rfl, List.not_mem_nil⟩, Nat.zero_le _⟩
  · rintro s t progress c taken null hs hc rfl hfits hrun htable
    exact call_capped hrecycles hs hc hrun
      (fun htaken => needed_le_cap hcap hchunk (hfits htaken)) htable
  · rintro null processed g ⟨hapart, j, hrecycled, hcapped⟩
    rw [removeSkippedBlocks_eq hk]
    refine (removeSkippedBlocks_table _ ⟨hapart, hrecycled⟩).weaken ?_
    rintro _ u ⟨hapart', hlen, hrecycled'⟩
    exact ⟨hapart', _, hrecycled', hlen ▸ hcapped.trans (by omega)⟩
  · rintro null numTokens replay req g rfl htable
    rw [cacheBlocks_eq hrecycles]
    exact cacheBlocks_table req _ _ _ htable
  · intro null g htable
    refine (free_table hk htable.1).weaken (fun _ u hu => ⟨hu.1, 0, ?_⟩)
    rw [show (entry u.manager r).blocks = [] from hu.2]
    exact ⟨⟨[], rfl, List.not_mem_nil⟩, Nat.zero_le _⟩

/-- While the lookahead slots fit, a request holds at most the blocks that its
admission reckoned with. -/
theorem held_blocks_le_admission_cap (r : RequestId) :
    heldBlocks s.pool.nullBlock ((s.managers i).reqToBlocks r) ≤ cap := by
  obtain ⟨null, htable⟩ := run_capped hcap hchunk h r
  have hnull : s.pool.nullBlock = null := htable.1.2
  rw [hnull]
  exact htable.2.heldBlocks_le
end

/-! ### Lookahead slots that do not fit -/

theorem held_blocks_le_admission_cap_one_slot :
    ∃ (t : CacheState 8 1) (progress : RequestId → Progress),
      Run (oneBatch 5 (some ⟨.eagle, 1, false⟩)) (oneGroup (.slidingWindow 4 0) false)
        (fun _ => LookaheadFits (oneBatch 5 (some ⟨.eagle, 1, false⟩))
          (oneGroup (.slidingWindow 4 0) false) 0) t progress ∧
      heldBlocks t.pool.nullBlock ((t.managers 0).reqToBlocks 0) ≤ 3 := by
  obtain ⟨pool, hinit, hnew⟩ := initPool_spec (n := 8) false 4 false
  have hrun : ∃ t, (allocateSlots (oneGroup (.slidingWindow 4 0) false) (chunkCall 0 5 1)).run
      ⟨pool, fun _ => initManager⟩ = .ok true t := by
    cases hinit
    exact ⟨_, rfl⟩
  obtain ⟨t, hrun⟩ := hrun
  have hfits : LookaheadFits (oneBatch 5 (some ⟨.eagle, 1, false⟩))
      (oneGroup (.slidingWindow 4 0) false) 0
      (chunkCall (n := 8) 0 5 1) := .inl (by decide)
  have hcall : Run (oneBatch 5 (some ⟨.eagle, 1, false⟩)) (oneGroup (.slidingWindow 4 0) false)
      (fun _ => LookaheadFits (oneBatch 5 (some ⟨.eagle, 1, false⟩))
        (oneGroup (.slidingWindow 4 0) false) 0) t _ :=
    .allocated (.init (nullApart_of_freeList hnew.free))
      (chunkCall_scheduled (by decide) (by decide) (by decide) (by decide) rfl) hfits hrun
  exact ⟨t, _, hcall, held_blocks_le_admission_cap rfl (by simp [oneGroup, Config.single]) hcall 0⟩

/-- A drafter with two lookahead slots makes a request hold four blocks of a
sliding-window group whose cap is three, and a chunk of three tokens in blocks
of four makes it hold three where the cap is two. -/
theorem held_blocks_exceed_admission_cap :
    (∃ (t : CacheState 8 1) (progress : RequestId → Progress),
      Run (oneBatch 5 (some ⟨.eagle, 2, false⟩)) (oneGroup (.slidingWindow 4 0) false)
        (fun _ _ => True) t progress ∧
      maxAdmissionBlocksPerRequest (.slidingWindow 4 0) 4 5 32 = some 3 ∧
      heldBlocks t.pool.nullBlock ((t.managers 0).reqToBlocks 0) = 4) ∧
    ∃ (t : CacheState 8 1) (progress : RequestId → Progress),
      Run (oneBatch 4 none) (oneGroup (.chunkedLocal 3) false) (fun _ _ => True) t progress ∧
      maxAdmissionBlocksPerRequest (.chunkedLocal 3) 4 4 32 = some 2 ∧
      heldBlocks t.pool.nullBlock ((t.managers 0).reqToBlocks 0) = 3 := by
  constructor
  · obtain ⟨t, progress, hrun, hheld⟩ := exists_run_of_heldAfter (n := 8)
      (oneBatch 5 (some ⟨.eagle, 2, false⟩)) (oneGroup (.slidingWindow 4 0) false) 0
      (fun _ _ => True) 2 4 [5, 1, 5] (by decide) (by decide) (by decide) (by decide)
      (by decide +kernel)
    exact ⟨t, progress, hrun, rfl, hheld⟩
  · obtain ⟨t, progress, hrun, hheld⟩ := exists_run_of_heldAfter (n := 8)
      (oneBatch 4 none) (oneGroup (.chunkedLocal 3) false) 0 (fun _ _ => True) 0 3 [4, 1, 4]
      (by decide) (by decide) (by decide) (by decide) (by decide +kernel)
    exact ⟨t, progress, hrun, rfl, hheld⟩

end Vllm.AdmissionCap
