import Vllm.CpuOffload
import Vllm.OffloadLedger

/-!
The CPU offload manager keeps the books of its pool. Over any lawful policy,
each operation of the manager is a sequence of moves of the ledger; what is
outstanding is recorded from the callers' side, with the block ids they were
given. Then whole sessions of calls are followed.
-/
namespace Vllm.Offload

open Outcome List

theorem cInt32_of_lt {x : ℤ} (h : 0 ≤ x) (hlt : x < 2 ^ 31) : cInt32 x = x := by
  unfold cInt32 Int.bmod
  simp only [Int.reducePow, Nat.cast_ofNat] at *
  split <;> omega

theorem cInt64_of_lt {x : ℤ} (h : 0 ≤ x) (hlt : x < 2 ^ 63) : cInt64 x = x := by
  unfold cInt64 Int.bmod
  simp only [Int.reducePow, Nat.cast_ofNat] at *
  split <;> omega

namespace CPUOffloadingManager

variable {κ σ : Type} [DecidableEq κ] {P : CachePolicy κ σ} (L : P.Lawful)

def ledger (m : CPUOffloadingManager κ σ) : Ledger κ where
  entries := L.blocks m.policy
  freeList := m.freeList
  allocated := m.numAllocatedBlocks
  evictable := m.numEvictableCacheBlocks
  pending := m.numWritePendingBlocks

/-- The policy is in order and the books are sound. -/
structure Booked (m : CPUOffloadingManager κ σ) (loads stores : Holdings κ) : Prop where
  valid : L.Valid m.policy
  sound : (m.ledger L).Sound m.numBlocks loads stores
  fits : m.numBlocks ≤ 2 ^ 63

variable {L} {m : CPUOffloadingManager κ σ} {loads loads' stores stores' : Holdings κ} {k : κ}
  {b : BlockStatus} {id : ℤ}

theorem Booked.perm (h : m.Booked L loads stores) (hloads : loads'.Perm loads)
    (hstores : stores'.Perm stores) : m.Booked L loads' stores' :=
  ⟨h.valid, h.sound.perm (.refl _) hloads hstores, h.fits⟩

/-- The books seen from one entry. -/
theorem Booked.entry (h : m.Booked L loads stores) (hget : P.get m.policy k = some b) :
    ∃ rest, (L.blocks m.policy).Perm ((k, b) :: rest) ∧
      ({ m.ledger L with entries := (k, b) :: rest } : Ledger κ).Sound m.numBlocks loads stores ∧
      ∀ r, (withRefCnt k r (L.blocks m.policy)).Perm ((k, { b with refCnt := r }) :: rest) := by
  have hmem := (L.get_eq_some_iff h.valid).mp hget
  obtain ⟨rest, hperm, -, hwith⟩ := exists_rest hmem (L.nodup h.valid)
  exact ⟨rest, hperm, h.sound.perm hperm.symm (.refl _) (.refl _), hwith⟩

theorem Booked.ready (h : m.Booked L loads stores) (hmem : k ∈ (L.blocks m.policy).map Prod.fst)
    (hstores : k ∉ stores.map Prod.fst) :
    ∃ b, P.get m.policy k = some b ∧ b.refCnt = (loads.map Prod.fst).count k := by
  obtain ⟨⟨j, b⟩, hb, rfl⟩ := mem_map.mp hmem
  have href := h.sound.refCnt_eq (j, b) hb
  rw [if_neg hstores] at href
  exact ⟨b, (L.get_eq_some_iff h.valid).mpr hb, href⟩

/-- Pinning a stored key succeeds and books one load. -/
theorem pinBlock_spec (h : m.Booked L loads stores) (hmem : k ∈ (L.blocks m.policy).map Prod.fst)
    (hstores : k ∉ stores.map Prod.fst) (hlimit : (loads.map Prod.fst).count k + 1 < 2 ^ 31) :
    Ensures (pinBlock P k) m
      (fun id t => t.Booked L ((k, id) :: loads) stores ∧
        ∀ j, j ∈ (L.blocks t.policy).map Prod.fst ↔ j ∈ (L.blocks m.policy).map Prod.fst)
      fun _ _ => False := by
  obtain ⟨b, hget, href⟩ := h.ready hmem hstores
  obtain ⟨rest, hperm, hsound, hwith⟩ := h.entry hget
  have hready : 0 ≤ b.refCnt := by omega
  have hnext : cInt32 (b.refCnt + 1) = b.refCnt + 1 := cInt32_of_lt (by omega) (by omega)
  have hpin := hsound.pin hready (by omega)
  have hkeys : ∀ {p : σ} {r : ℤ}, (L.blocks p).Perm (withRefCnt k r (L.blocks m.policy)) →
      ∀ j, j ∈ (L.blocks p).map Prod.fst ↔ j ∈ (L.blocks m.policy).map Prod.fst := by
    intro p r hp j
    rw [(hp.map Prod.fst).mem_iff, map_fst_withRefCnt]
  unfold pinBlock
  rw [ensures_bind, ensures_get, ensures_bind, ensures_expect]
  refine ⟨?_, by simp [hget]⟩
  intro block hblock
  obtain rfl : b = block := Option.some.inj (hget.symm.trans hblock)
  rw [ensures_bind, ensures_check]
  refine ⟨fun _ => ?_, fun hnot => hnot hready⟩
  rw [ensures_bind, ensures_onlyIf, hnext]
  refine ⟨?_, ?_⟩
  · intro hidle
    rw [if_pos hidle] at hpin
    rw [ensures_bind]
    unfold withPolicy
    rw [ensures_zoom]
    refine (L.pin (r := b.refCnt + 1) h.valid hget hidle (by omega)).imp ?_
    intro _ p hp
    rw [ensures_bind, ensures_modify, ensures_bind, ensures_get, ensures_check]
    refine ⟨?_, ?_⟩
    · intro _
      rw [ensures_bind, ensures_modify, ensures_pure]
      refine ⟨⟨hp.1, ?_, h.fits⟩, hkeys hp.2⟩
      exact hpin.perm (hp.2.trans (hwith _)) (.refl _) (.refl _)
    · intro hneg
      have hpos := hpin.evictable_eq
      dsimp only [ledger] at hpos hneg
      omega
  · intro hbusy
    rw [if_neg hbusy, sub_zero] at hpin
    rw [ensures_bind, ensures_modify, ensures_pure]
    have hhold := L.hold (r := b.refCnt + 1) h.valid hget hbusy (by omega)
    refine ⟨⟨hhold.1, ?_, h.fits⟩, hkeys hhold.2⟩
    exact hpin.perm (hhold.2.trans (hwith _)) (.refl _) (.refl _)

/-- Pinning a key that is missing or still being stored fails. -/
theorem pinBlock_unready (h : m.Booked L loads stores)
    (hk : ¬ (k ∈ (L.blocks m.policy).map Prod.fst ∧ k ∉ stores.map Prod.fst)) :
    Ensures (pinBlock P k) m (fun _ _ => False) fun _ _ => True := by
  unfold pinBlock
  rw [ensures_bind, ensures_get, ensures_bind, ensures_expect]
  refine ⟨?_, fun _ => trivial⟩
  intro b hget
  rw [ensures_bind, ensures_check]
  refine ⟨?_, fun _ => trivial⟩
  intro hready
  obtain ⟨rest, hperm, hsound, -⟩ := h.entry hget
  refine (hk ⟨?_, (hsound.refCnt_of_ready hready).1⟩).elim
  exact (hperm.map Prod.fst).mem_iff.mpr mem_cons_self

variable (call : Holdings κ) (keys : List κ)

/-- Every key of the call is pinned once more, in a block of its own entry; or one of them
was not ready. -/
theorem prepareLoad_outcome (h : m.Booked L loads stores)
    (hlimit : ∀ k ∈ keys, (loads.map Prod.fst).count k + keys.count k < 2 ^ 31) :
    Ensures (prepareLoad P keys) m
      (fun ids t => ids.length = keys.length ∧ t.Booked L (keys.zip ids ++ loads) stores)
      fun _ _ => ∃ k ∈ keys,
        ¬ (k ∈ (L.blocks m.policy).map Prod.fst ∧ k ∉ stores.map Prod.fst) := by
  unfold prepareLoad
  induction keys generalizing m loads with
  | nil => exact ⟨rfl, h⟩
  | cons k keys ih =>
    rw [mapM_cons, ensures_bind]
    by_cases hk : k ∈ (L.blocks m.policy).map Prod.fst ∧ k ∉ stores.map Prod.fst
    swap
    · exact (pinBlock_unready h hk).mono (fun _ _ hf => hf.elim)
        fun _ _ _ => ⟨k, mem_cons_self, hk⟩
    have hroom := hlimit k mem_cons_self
    rw [count_cons_self] at hroom
    refine (pinBlock_spec h hk.1 hk.2 (by omega)).mono ?_ (fun _ _ hf => hf.elim)
    intro id t ht
    obtain ⟨ht, hkeys⟩ := ht
    rw [ensures_bind]
    refine (ih ht ?_).mono ?_ ?_
    · intro j hj
      have hold := hlimit j (mem_cons_of_mem k hj)
      rw [map_cons]
      by_cases hjk : k = j
      · subst hjk
        rw [count_cons_self] at hold ⊢
        omega
      · rw [count_cons_of_ne hjk] at hold ⊢
        exact hold
    · intro ids u hu
      rw [ensures_pure]
      refine ⟨by simp [hu.1], hu.2.perm ?_ (.refl _)⟩
      rw [zip_cons_cons, cons_append]
      exact perm_middle.symm
    · intro _ _ hbad
      obtain ⟨j, hj, hnot⟩ := hbad
      exact ⟨j, mem_cons_of_mem k hj, fun hj' => hnot ⟨(hkeys j).mpr hj'.1, hj'.2⟩⟩

/-- A load of stored keys pins each of them and is booked as outstanding. -/
theorem prepareLoad_spec (h : m.Booked L loads stores)
    (hmem : ∀ k ∈ keys, k ∈ (L.blocks m.policy).map Prod.fst ∧ k ∉ stores.map Prod.fst)
    (hlimit : ∀ k ∈ keys, (loads.map Prod.fst).count k + keys.count k < 2 ^ 31) :
    Ensures (prepareLoad P keys) m
      (fun ids t => ids.length = keys.length ∧ t.Booked L (keys.zip ids ++ loads) stores)
      fun _ _ => False :=
  (prepareLoad_outcome keys h hlimit).mono (fun _ _ hq => hq) fun _ _ hbad => by
    obtain ⟨k, hk, hnot⟩ := hbad
    exact hnot (hmem k hk)

theorem unpinBlock_spec (h : m.Booked L ((k, id) :: loads) stores) :
    Ensures (unpinBlock P k) m (fun _ t => t.Booked L loads stores) fun _ _ => False := by
  obtain ⟨-, b, hb, -⟩ := h.sound.loads_owned (k, id) mem_cons_self
  have hget : P.get m.policy k = some b := (L.get_eq_some_iff h.valid).mpr hb
  obtain ⟨rest, hperm, hsound, hwith⟩ := h.entry hget
  obtain ⟨hpos, hlt, hunpin⟩ := hsound.unpin
  have hnext : cInt32 (b.refCnt - 1) = b.refCnt - 1 := cInt32_of_lt (by omega) (by omega)
  unfold unpinBlock
  rw [ensures_bind, ensures_get, ensures_bind, ensures_expect]
  refine ⟨?_, by simp [hget]⟩
  intro block hblock
  obtain rfl : b = block := Option.some.inj (hget.symm.trans hblock)
  rw [ensures_bind, ensures_check]
  refine ⟨fun _ => ?_, fun hnot => hnot hpos⟩
  dsimp only
  rw [ensures_bind, ensures_set, ensures_onlyIf, hnext]
  refine ⟨?_, ?_⟩
  · intro hidle
    rw [if_pos hidle] at hunpin
    rw [ensures_modify, hidle]
    rw [hidle] at hunpin
    have hrelease := L.release h.valid hget (by omega)
    refine ⟨hrelease.1, ?_, h.fits⟩
    exact hunpin.perm (hrelease.2.trans (hwith 0)) (.refl _) (.refl _)
  · intro hbusy
    rw [if_neg hbusy, add_zero] at hunpin
    have hhold := L.hold (r := b.refCnt - 1) h.valid hget (by omega) hbusy
    refine ⟨hhold.1, ?_, h.fits⟩
    exact hunpin.perm (hhold.2.trans (hwith _)) (.refl _) (.refl _)

/-- The loads of the call are taken off one by one. -/
theorem completeLoad_spec (h : m.Booked L (call ++ loads) stores) :
    Ensures (completeLoad P (call.map Prod.fst)) m (fun _ t => t.Booked L loads stores)
      fun _ _ => False := by
  unfold completeLoad
  induction call generalizing m with
  | nil => exact h
  | cons d call ih =>
    change Ensures (forM (d.1 :: call.map Prod.fst) (unpinBlock P)) m _ _
    rw [forM_cons, ensures_bind]
    refine (unpinBlock_spec h).imp ?_
    intro _ t ht
    exact ih ht

section
variable (h : m.Booked L loads ((k, id) :: stores))
include h

theorem Booked.storing : ∃ b, P.get m.policy k = some b ∧ b.blockId = id ∧ b.refCnt = -1 := by
  obtain ⟨b, hb, hid⟩ := h.sound.stores_owned (k, id) mem_cons_self
  have hget : P.get m.policy k = some b := (L.get_eq_some_iff h.valid).mpr hb
  obtain ⟨rest, -, hsound, -⟩ := h.entry hget
  exact ⟨b, hget, hid, hsound.commit.1⟩

theorem commitBlock_spec :
    Ensures (commitBlock P k) m (fun _ t => t.Booked L loads stores) fun _ _ => False := by
  obtain ⟨b, hget, -, href⟩ := h.storing
  obtain ⟨rest, hperm, hsound, hwith⟩ := h.entry hget
  unfold commitBlock
  rw [ensures_bind, ensures_get, hget]
  dsimp only
  rw [if_neg (show ¬ b.isReady by unfold BlockStatus.isReady; omega), ensures_bind, ensures_set,
    ensures_pure]
  have hrelease := L.release h.valid hget (by omega)
  refine ⟨hrelease.1, ?_, h.fits⟩
  exact hsound.commit.2.perm (hrelease.2.trans (hwith 0)) (.refl _) (.refl _)

theorem dropBlock_spec :
    Ensures (dropBlock P k) m (fun _ t => t.Booked L loads stores) fun _ _ => False := by
  obtain ⟨b, hget, -, href⟩ := h.storing
  obtain ⟨rest, hperm, hsound, -⟩ := h.entry hget
  unfold dropBlock
  rw [ensures_bind, ensures_get, hget]
  dsimp only
  rw [ensures_onlyIf]
  refine ⟨fun _ => ?_, fun hready => (hready ?_).elim⟩
  · rw [ensures_bind, ensures_set, ensures_bind]
    unfold withPolicy
    rw [ensures_zoom]
    refine (L.remove h.valid hget).imp ?_
    intro _ p hp
    rw [ensures_modify]
    refine ⟨hp.1, ?_, h.fits⟩
    have hrest : (L.blocks p).Perm rest := (hp.2.trans hperm).cons_inv
    exact hsound.drop.2.perm hrest (.refl _) (.refl _)
  · unfold BlockStatus.isReady
    omega
end

theorem Booked.emit (h : m.Booked L loads stores) (keys : List κ) (removed : Bool) :
    (m.emit keys removed).Booked L loads stores := by
  unfold CPUOffloadingManager.emit
  split_ifs
  · exact h
  · exact ⟨h.valid, h.sound, h.fits⟩

/-- A completion settles every store of its call, whether it succeeded or not. -/
theorem completeStore_spec (success : Bool) (h : m.Booked L loads (call ++ stores)) :
    Ensures (completeStore P (call.map Prod.fst) success) m (fun _ t => t.Booked L loads stores)
      fun _ _ => False := by
  unfold completeStore
  cases success with
  | true =>
    rw [if_pos rfl, ensures_bind]
    have hcommit : Ensures (commitBlocks P (call.map Prod.fst)) m
        (fun _ t => t.Booked L loads stores) fun _ _ => False := by
      induction call generalizing m with
      | nil => exact h
      | cons d call ih =>
        rw [map_cons, commitBlocks, ensures_bind]
        refine (commitBlock_spec h).imp ?_
        intro _ t ht
        rw [ensures_bind]
        refine (ih ht).imp ?_
        intro _ u hu
        exact hu
    refine hcommit.imp ?_
    intro stored t ht
    exact ht.emit stored false
  | false =>
    rw [if_neg (by simp)]
    induction call generalizing m with
    | nil => exact h
    | cons d call ih =>
      change Ensures (forM (d.1 :: call.map Prod.fst) (dropBlock P)) m _ _
      rw [forM_cons, ensures_bind]
      refine (dropBlock_spec h).imp ?_
      intro _ t ht
      exact ih ht

theorem Booked.touch (h : m.Booked L loads stores) (keys : List κ) :
    (m.touch P keys).Booked L loads stores := by
  have htouch := L.touch keys h.valid
  exact ⟨htouch.1, h.sound.perm htouch.2 (.refl _) (.refl _), h.fits⟩

theorem Booked.resetCache (h : m.Booked L loads stores) : (m.resetCache P).Booked L [] [] := by
  obtain ⟨hvalid, hblocks⟩ := L.clear m.policy
  refine ⟨hvalid, ?_, h.fits⟩
  unfold ledger CPUOffloadingManager.resetCache
  dsimp only
  rw [hblocks]
  exact Ledger.sound_empty m.numBlocks

theorem Booked.withCounts (h : m.Booked L loads stores) (counts : Option (OrderedDict κ ℤ)) :
    ({ m with counts := counts } : CPUOffloadingManager κ σ).Booked L loads stores :=
  ⟨h.valid, h.sound, h.fits⟩

def trackerEmpty : Failure := .keyError "dictionary is empty"

/-- Admission changes the access counts only. It fails when the tracker may hold no key. -/
theorem aboveThreshold_spec :
    Ensures (aboveThreshold keys) m
      (fun keys' t => keys'.Sublist keys ∧ ∃ c, t = { m with counts := c })
      (fun e t => e = trackerEmpty ∧ m.maxTrackerSize ≤ 0 ∧ ∃ c, t = { m with counts := c }) := by
  unfold aboveThreshold
  rw [ensures_bind, ensures_get]
  split
  next => exact ⟨List.Sublist.refl _, m.counts, rfl⟩
  next first hfirst =>
    rw [ensures_bind]
    refine Ensures.mono (Q := fun _ t => ∃ c, t = { m with counts := some c })
      (ensures_forM _ keys ?_ m ⟨first, by rw [← hfirst]⟩) ?_ (fun _ _ he => he)
    · intro key _ t ht
      obtain ⟨c, rfl⟩ := ht
      rw [ensures_bind, ensures_get, ensures_bind, ensures_expect]
      refine ⟨?_, by simp⟩
      intro counts hcounts
      cases hcounts
      dsimp only
      cases hrecord : recordAccess m.maxTrackerSize c key with
      | ok c' => exact ⟨c', rfl⟩
      | error e =>
        unfold recordAccess at hrecord
        split at hrecord
        · cases hrecord
        · split_ifs at hrecord with hsize hempty
          cases hrecord
          refine ⟨rfl, ?_, some c, rfl⟩
          omega
    · intro _ t ht
      obtain ⟨c, rfl⟩ := ht
      exact ⟨filter_sublist, some c, rfl⟩

/-- Eviction finds room for `n` blocks among the idle ones, or changes nothing. -/
theorem makeRoom_spec (n : ℕ) (shielded : List κ) (h : m.Booked L loads stores) :
    Ensures (makeRoom P n shielded) m
      (fun r t => match r with
        | none => t = m
        | some _ => t.Booked L loads stores ∧ (n : ℤ) ≤ t.getNumFreeBlocks ∧
          (∀ k, P.get m.policy k = none → P.get t.policy k = none))
      fun _ _ => False := by
  unfold makeRoom
  rw [ensures_bind, ensures_get]
  dsimp only
  rw [ensures_ite]
  refine ⟨fun hroom => ⟨h, by omega, fun _ hk => hk⟩, ?_⟩
  intro hlack
  rw [ensures_ite]
  refine ⟨fun _ => rfl, ?_⟩
  intro _
  rw [ensures_bind]
  unfold withPolicy
  rw [ensures_zoom]
  refine (L.evict _ shielded h.valid).imp ?_
  intro r p hp
  obtain ⟨hvalid, hr⟩ := hp
  cases r with
  | none =>
    obtain rfl : p = m.policy := hr
    rfl
  | some victims =>
    obtain ⟨hlen, hperm, hidle⟩ := hr
    have hsound := h.sound.perm hperm.symm (.refl _) (.refl _)
    have hevict := hsound.evict fun v hv => (hidle v hv).1
    dsimp only
    rw [ensures_bind, ensures_modify, ensures_bind, ensures_get, ensures_bind, ensures_check]
    refine ⟨?_, ?_⟩
    · intro _
      rw [ensures_bind, ensures_set, ensures_pure]
      refine ⟨⟨hvalid, hevict, h.fits⟩, ?_, ?_⟩
      · have hcount : (victims.length : ℤ) = n - m.getNumFreeBlocks := by
          rw [hlen]
          omega
        unfold getNumFreeBlocks at hcount ⊢
        dsimp only
        rw [length_append, length_map, length_map]
        push_cast
        omega
      · intro k hk
        rw [L.get_eq_none_iff h.valid, (hperm.map Prod.fst).mem_iff, map_append,
          mem_append, not_or] at hk
        exact (L.get_eq_none_iff hvalid).mpr hk.2
    · intro hneg
      have hpos := hevict.evictable_eq
      dsimp only [ledger] at hpos hneg
      omega

theorem Booked.free_bounds (h : m.Booked L loads stores) (hid : id ∈ m.freeList) :
    0 ≤ id ∧ id < 2 ^ 63 := by
  have hmem : id ∈ (List.range m.numBlocks).map Int.ofNat :=
    h.sound.pool.mem_iff.mp (mem_append_right _ (mem_append_left _ hid))
  obtain ⟨i, hi, rfl⟩ := mem_map.mp hmem
  have hlt := mem_range.mp hi
  have hfits := h.fits
  rw [Int.ofNat_eq_natCast]
  omega

theorem map_blockId_new {ids : List ℤ} (h : ∀ id ∈ ids, 0 ≤ id ∧ id < 2 ^ 63) :
    (ids.map BlockStatus.new).map BlockStatus.blockId = ids := by
  rw [map_map]
  conv_rhs => rw [← map_id ids]
  apply map_congr_left
  intro id hid
  exact cInt64_of_lt (h id hid).1 (h id hid).2

/-- Enough room gives every key a block of its own, taken from the fresh and free ids. -/
theorem allocateBlocks_spec (h : m.Booked L loads stores)
    (hroom : (keys.length : ℤ) ≤ m.getNumFreeBlocks) :
    Ensures (allocateBlocks keys) m
      (fun blocks t => blocks.length = keys.length ∧ (∀ b ∈ blocks, b.refCnt = -1) ∧
        t.numAllocatedBlocks ≤ m.numBlocks ∧
        t = { m with numAllocatedBlocks := t.numAllocatedBlocks, freeList := t.freeList } ∧
        (blocks.map BlockStatus.blockId ++
            (t.freeList ++ Ledger.fresh m.numBlocks t.numAllocatedBlocks)).Perm
          (m.freeList ++ Ledger.fresh m.numBlocks m.numAllocatedBlocks))
      fun _ _ => False := by
  have hle : m.numAllocatedBlocks ≤ m.numBlocks := h.sound.allocated_le
  have hfits := h.fits
  unfold getNumFreeBlocks at hroom
  unfold allocateBlocks
  rw [ensures_bind, ensures_get]
  dsimp only
  generalize hfresh : min keys.length (m.numBlocks - m.numAllocatedBlocks) = numFresh
  rw [ensures_bind, ensures_check]
  refine ⟨?_, fun hnot => hnot (by omega)⟩
  intro hreused
  rw [ensures_bind, ensures_set, ensures_pure]
  refine ⟨?_, ?_, by dsimp only; omega, rfl, ?_⟩
  · simp only [length_append, length_map, length_range', length_take,
      length_reverse]
    omega
  · intro b hb
    rcases mem_append.mp hb with hb | hb
    · obtain ⟨i, -, rfl⟩ := mem_map.mp hb
      rfl
    · obtain ⟨i, -, rfl⟩ := mem_map.mp hb
      rfl
  · have hfreshIds : (List.range' m.numAllocatedBlocks numFresh).map
        (fun (i : ℕ) => BlockStatus.new i) =
        ((List.range' m.numAllocatedBlocks numFresh).map Int.ofNat).map BlockStatus.new := by
      rw [map_map]
      rfl
    rw [hfreshIds, ← map_append, map_blockId_new]
    · exact Ledger.handOut_perm m.freeList (by omega)
    · intro i hi
      rcases mem_append.mp hi with hi | hi
      · obtain ⟨n, hn, rfl⟩ := mem_map.mp hi
        have hlt := mem_range'_1.mp hn
        rw [Int.ofNat_eq_natCast]
        omega
      · exact h.free_bounds (mem_reverse.mp (mem_of_mem_take hi))

/-- New blocks are inserted one by one, busy and under new keys. -/
theorem foldl_insert_spec (reserved : List (κ × BlockStatus)) {p : σ} (hp : L.Valid p)
    (hkeys : (reserved.map Prod.fst).Nodup) (hnew : ∀ e ∈ reserved, P.get p e.1 = none)
    (hbusy : ∀ e ∈ reserved, e.2.refCnt ≠ 0) :
    L.Valid (reserved.foldl (fun p e => P.insert e.1 e.2 p) p) ∧
      (L.blocks (reserved.foldl (fun p e => P.insert e.1 e.2 p) p)).Perm
        (reserved ++ L.blocks p) := by
  induction reserved generalizing p with
  | nil => exact ⟨hp, List.Perm.refl _⟩
  | cons e reserved ih =>
    obtain ⟨hfresh, hrest⟩ := nodup_cons.mp hkeys
    obtain ⟨hvalid, hperm⟩ :=
      L.insert hp (hnew e mem_cons_self) (hbusy e mem_cons_self)
    have hnew' : ∀ f ∈ reserved, P.get (P.insert e.1 e.2 p) f.1 = none := by
      intro f hf
      have hold := (L.get_eq_none_iff hp).mp (hnew f (mem_cons_of_mem e hf))
      rw [L.get_eq_none_iff hvalid, (hperm.map Prod.fst).mem_iff, map_cons, mem_cons,
        not_or]
      exact ⟨fun hfe => hfresh (hfe ▸ mem_map_of_mem hf), hold⟩
    obtain ⟨hvalid', hperm'⟩ := ih hvalid hrest hnew' fun f hf => hbusy f (mem_cons_of_mem e hf)
    exact ⟨hvalid', hperm'.trans ((hperm.append_left reserved).trans perm_middle)⟩

/-- The policy takes the blocks that were allocated for the keys. -/
theorem Booked.insertBlocks {u v : CPUOffloadingManager κ σ} {blocks : List BlockStatus}
    (h : u.Booked L loads stores) (hkeys : keys.Nodup)
    (hnew : ∀ k ∈ keys, P.get u.policy k = none) (hlen : blocks.length = keys.length)
    (href : ∀ b ∈ blocks, b.refCnt = -1) (hle : v.numAllocatedBlocks ≤ u.numBlocks)
    (hframe : v = { u with numAllocatedBlocks := v.numAllocatedBlocks, freeList := v.freeList })
    (hpool : (blocks.map BlockStatus.blockId ++
        (v.freeList ++ Ledger.fresh u.numBlocks v.numAllocatedBlocks)).Perm
      (u.freeList ++ Ledger.fresh u.numBlocks u.numAllocatedBlocks)) :
    ({ v.insertBlocks P (keys.zip blocks) with
      numWritePendingBlocks := v.numWritePendingBlocks + keys.length } :
        CPUOffloadingManager κ σ).Booked L loads
      (keys.zip (blocks.map BlockStatus.blockId) ++ stores) := by
  generalize hres : keys.zip blocks = reserved
  have hfst : reserved.map Prod.fst = keys := by
    rw [← hres]
    exact map_fst_zip (by omega)
  have hsnd : reserved.map (fun e => e.2.blockId) = blocks.map BlockStatus.blockId := by
    rw [← hres]
    have hzip : (keys.zip blocks).map Prod.snd = blocks := map_snd_zip (by omega)
    conv_rhs => rw [← hzip, map_map]
    rfl
  have hpairs : reserved.map (fun e => (e.1, e.2.blockId)) =
      keys.zip (blocks.map BlockStatus.blockId) := by
    rw [← hres, zip_map_right]
    rfl
  have hwritten : ∀ e ∈ reserved, e.2.refCnt = -1 := by
    intro e he
    rw [← hres] at he
    exact href e.2 (of_mem_zip he).2
  have hnone : ∀ e ∈ reserved, P.get u.policy e.1 = none := by
    intro e he
    exact hnew e.1 (hfst ▸ mem_map_of_mem he)
  obtain ⟨hvalid, hperm⟩ := foldl_insert_spec reserved h.valid (hfst ▸ hkeys) hnone
    fun e he => by rw [hwritten e he]; decide
  have hsound := h.sound.reserve (hfst ▸ hkeys)
    (fun e he => (L.get_eq_none_iff h.valid).mp (hnone e he)) hwritten hle
    (by rw [hsnd]; exact hpool)
  have hcount : reserved.length = keys.length := by
    rw [← hfst, length_map]
  rw [hpairs, hcount] at hsound
  rw [hframe]
  exact ⟨hvalid, hsound.perm hperm (.refl _) (.refl _), h.fits⟩

/-- A store either reserves a block for each key it returns, or changes neither the
entries nor the free ids. -/
theorem prepareStore_spec (hkeys : keys.Nodup) (h : m.Booked L loads stores) :
    Ensures (prepareStore P keys) m
      (fun r t => match r with
        | none => t.Booked L loads stores ∧ ∃ c, t = { m with counts := c }
        | some out => out.storeSpec.length = out.keysToStore.length ∧
          t.Booked L loads (out.keysToStore.zip out.storeSpec ++ stores))
      (fun e t => e = trackerEmpty ∧ m.maxTrackerSize ≤ 0 ∧ t.Booked L loads stores) := by
  unfold prepareStore
  rw [ensures_bind]
  refine (aboveThreshold_spec keys).mono ?_ ?_
  swap
  · intro e t ht
    obtain ⟨he, hsize, c, rfl⟩ := ht
    exact ⟨he, hsize, h.withCounts c⟩
  intro admitted t ht
  obtain ⟨hsub, c, rfl⟩ := ht
  have hbooked := h.withCounts c
  rw [ensures_bind, ensures_get]
  dsimp only
  generalize hstore : admitted.filter (fun key => decide (P.get m.policy key = none)) = keysToStore
  have hdistinct : keysToStore.Nodup := by
    rw [← hstore]
    exact (hkeys.sublist hsub).filter _
  have habsent : ∀ k ∈ keysToStore, P.get m.policy k = none := by
    intro k hk
    rw [← hstore, mem_filter] at hk
    exact of_decide_eq_true hk.2
  rw [ensures_ite]
  refine ⟨fun _ => ⟨rfl, hbooked⟩, ?_⟩
  intro _
  rw [ensures_bind]
  refine (makeRoom_spec keysToStore.length admitted hbooked).mono ?_ (fun _ _ hf => hf.elim)
  intro r t ht
  cases r with
  | none =>
    obtain rfl := ht
    exact ⟨hbooked, c, rfl⟩
  | some evicted =>
    obtain ⟨hroomed, hroom, hgone⟩ := ht
    have hmarked := hroomed.emit evicted true
    dsimp only
    rw [ensures_bind, ensures_modify, ensures_bind]
    refine (allocateBlocks_spec keysToStore hmarked (by rwa [getNumFreeBlocks_emit])).mono ?_
      (fun _ _ hf => hf.elim)
    intro blocks v hv
    obtain ⟨hlen, href, hle, hframe, hpool⟩ := hv
    rw [ensures_bind, ensures_check]
    refine ⟨fun _ => ?_, fun hnot => (hnot hlen).elim⟩
    rw [ensures_bind, ensures_modify, ensures_bind, ensures_modify, ensures_pure]
    refine ⟨by simp [hlen], ?_⟩
    refine Booked.insertBlocks _ hmarked hdistinct ?_ hlen href hle hframe hpool
    intro k hk
    rw [policy_emit]
    exact hgone k (habsent k hk)

end CPUOffloadingManager

end Vllm.Offload
