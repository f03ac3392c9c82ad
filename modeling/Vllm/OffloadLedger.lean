import Mathlib.Data.List.Perm.Subperm
import Vllm.PolicyLaws

/-!
The books of a pool of pinned blocks. Every id is owned by an entry, free, or
not handed out yet. An entry counts the transfers that read it, or is -1 while
it is written; two counters repeat what the entries say. The moves below are
the ones a manager makes: pin, unpin, commit, drop, evict and reserve. Each
keeps the books sound for the transfers outstanding after it.
-/
namespace Vllm.Offload

open List

variable {κ : Type}

structure Ledger (κ : Type) where
  entries : List (κ × BlockStatus)
  freeList : List ℤ
  allocated : ℕ
  evictable : ℤ
  pending : ℤ

abbrev Holdings (κ : Type) := List (κ × ℤ)

namespace Ledger

def fresh (numBlocks allocated : ℕ) : List ℤ :=
  (List.range' allocated (numBlocks - allocated)).map Int.ofNat

variable [DecidableEq κ]

/-- The books of a pool with outstanding `loads` and `stores`. -/
structure Sound (numBlocks : ℕ) (l : Ledger κ) (loads stores : Holdings κ) : Prop where
  nodup : (l.entries.map Prod.fst).Nodup
  allocated_le : l.allocated ≤ numBlocks
  pool : (l.entries.map (fun e => e.2.blockId) ++ (l.freeList ++ fresh numBlocks l.allocated)).Perm
    ((List.range numBlocks).map Int.ofNat)
  evictable_eq : l.evictable = l.entries.countP fun e => e.2.refCnt = 0
  pending_eq : l.pending = l.entries.countP fun e => e.2.refCnt = -1
  refCnt_eq : ∀ e ∈ l.entries, e.2.refCnt =
    if e.1 ∈ stores.map Prod.fst then -1 else ((loads.map Prod.fst).count e.1 : ℤ)
  stores_nodup : (stores.map Prod.fst).Nodup
  stores_owned : ∀ h ∈ stores, ∃ b, (h.1, b) ∈ l.entries ∧ b.blockId = h.2
  loads_owned : ∀ h ∈ loads, h.1 ∉ stores.map Prod.fst ∧ ∃ b, (h.1, b) ∈ l.entries ∧ b.blockId = h.2
  loads_lt : ∀ k, (loads.map Prod.fst).count k < 2 ^ 31

theorem sound_empty (numBlocks : ℕ) : (⟨[], [], 0, 0, 0⟩ : Ledger κ).Sound numBlocks [] [] where
  nodup := nodup_nil
  allocated_le := Nat.zero_le _
  pool := by simp [fresh, range_eq_range']
  evictable_eq := by simp
  pending_eq := by simp
  refCnt_eq := by simp
  stores_nodup := nodup_nil
  stores_owned := by simp
  loads_owned := by simp
  loads_lt := by simp

section
variable {numBlocks : ℕ} {l : Ledger κ} {entries rest : List (κ × BlockStatus)}
  {loads loads' stores stores' : Holdings κ} {k : κ} {b : BlockStatus} {id : ℤ}

theorem Sound.perm (h : l.Sound numBlocks loads stores) (hentries : entries.Perm l.entries)
    (hloads : loads'.Perm loads) (hstores : stores'.Perm stores) :
    ({ l with entries := entries } : Ledger κ).Sound numBlocks loads' stores' where
  nodup := (hentries.map Prod.fst).nodup_iff.mpr h.nodup
  allocated_le := h.allocated_le
  pool := ((hentries.map _).append_right _).trans h.pool
  evictable_eq := by rw [h.evictable_eq, hentries.countP_eq]
  pending_eq := by rw [h.pending_eq, hentries.countP_eq]
  refCnt_eq := by
    intro e he
    rw [h.refCnt_eq e (hentries.mem_iff.mp he), (hloads.map Prod.fst).count_eq]
    simp only [(hstores.map Prod.fst).mem_iff]
  stores_nodup := (hstores.map Prod.fst).nodup_iff.mpr h.stores_nodup
  stores_owned := by
    intro d hd
    obtain ⟨b, hb, hid⟩ := h.stores_owned d (hstores.mem_iff.mp hd)
    exact ⟨b, hentries.mem_iff.mpr hb, hid⟩
  loads_owned := by
    intro d hd
    obtain ⟨hready, b, hb, hid⟩ := h.loads_owned d (hloads.mem_iff.mp hd)
    exact ⟨fun hmem => hready ((hstores.map Prod.fst).mem_iff.mp hmem), b,
      hentries.mem_iff.mpr hb, hid⟩
  loads_lt := by
    intro k
    rw [(hloads.map Prod.fst).count_eq]
    exact h.loads_lt k

omit [DecidableEq κ] in
theorem ne_of_mem_rest (hnodup : (((k, b) :: rest).map Prod.fst).Nodup) {e : κ × BlockStatus}
    (he : e ∈ rest) : e.1 ≠ k := by
  intro hek
  rw [map_cons, nodup_cons] at hnodup
  exact hnodup.1 (mem_map.mpr ⟨e, he, hek⟩)

omit [DecidableEq κ] in
/-- An owner keeps its block when only the count of an entry changes. -/
theorem owned_update (r : ℤ) {d : κ × ℤ}
    (h : ∃ c, (d.1, c) ∈ (k, b) :: rest ∧ c.blockId = d.2) :
    ∃ c, (d.1, c) ∈ (k, { b with refCnt := r }) :: rest ∧ c.blockId = d.2 := by
  obtain ⟨c, hc, hid⟩ := h
  rcases mem_cons.mp hc with hc | hc
  · obtain ⟨hk, rfl⟩ := Prod.ext_iff.mp hc
    exact ⟨{ c with refCnt := r }, mem_cons.mpr (.inl (Prod.ext hk rfl)), hid⟩
  · exact ⟨c, mem_cons_of_mem _ hc, hid⟩

section
variable (h : ({ l with entries := (k, b) :: rest } : Ledger κ).Sound numBlocks loads stores)
include h

/-- The count of one entry is changed to what the transfers of its key now are, and the
counters follow. -/
theorem Sound.update (loads' stores' : Holdings κ) (r : ℤ)
    (hr : r = if k ∈ stores'.map Prod.fst then -1 else ((loads'.map Prod.fst).count k : ℤ))
    (hstores : ∀ j, j ≠ k → (j ∈ stores'.map Prod.fst ↔ j ∈ stores.map Prod.fst))
    (hloads : ∀ j, j ≠ k → (loads'.map Prod.fst).count j = (loads.map Prod.fst).count j)
    (hnodup : (stores'.map Prod.fst).Nodup) (hkept : ∀ d ∈ stores', d ∈ stores)
    (hheld : ∀ d ∈ loads', d.1 ∉ stores'.map Prod.fst ∧ (d ∈ loads ∨ d = (k, b.blockId)))
    (hlt : (loads'.map Prod.fst).count k < 2 ^ 31) :
    ({ l with
        entries := (k, { b with refCnt := r }) :: rest
        evictable := l.evictable + (if r = 0 then 1 else 0) - (if b.refCnt = 0 then 1 else 0)
        pending := l.pending + (if r = -1 then 1 else 0) - (if b.refCnt = -1 then 1 else 0) } :
      Ledger κ).Sound numBlocks loads' stores' := by
  have hself : ∃ c, ((k, b.blockId).1, c) ∈ (k, b) :: rest ∧ c.blockId = (k, b.blockId).2 :=
    ⟨b, mem_cons_self, rfl⟩
  refine ⟨h.nodup, h.allocated_le, h.pool, ?_, ?_, ?_, hnodup, ?_, ?_, ?_⟩
  · have hold := h.evictable_eq
    simp only [countP_cons, decide_eq_true_eq] at hold ⊢
    split_ifs at hold ⊢ <;> push_cast at hold ⊢ <;> omega
  · have hold := h.pending_eq
    simp only [countP_cons, decide_eq_true_eq] at hold ⊢
    split_ifs at hold ⊢ <;> push_cast at hold ⊢ <;> omega
  · intro e he
    rcases mem_cons.mp he with rfl | he
    · exact hr
    · have hne := ne_of_mem_rest h.nodup he
      rw [h.refCnt_eq e (mem_cons_of_mem _ he), hloads e.1 hne]
      simp only [hstores e.1 hne]
  · exact fun d hd => owned_update r (h.stores_owned d (hkept d hd))
  · intro d hd
    obtain ⟨hready, hd | rfl⟩ := hheld d hd
    · exact ⟨hready, owned_update r (h.loads_owned d hd).2⟩
    · exact ⟨hready, owned_update r hself⟩
  · intro j
    by_cases hj : j = k
    · exact hj ▸ hlt
    · rw [hloads j hj]
      exact h.loads_lt j

/-- A ready block counts its outstanding loads and is not being stored. -/
theorem Sound.refCnt_of_ready (hready : 0 ≤ b.refCnt) :
    k ∉ stores.map Prod.fst ∧ b.refCnt = (loads.map Prod.fst).count k := by
  have href := h.refCnt_eq (k, b) mem_cons_self
  dsimp only at href
  have hkey : k ∉ stores.map Prod.fst := by
    intro hmem
    rw [if_pos hmem] at href
    omega
  rw [if_neg hkey] at href
  exact ⟨hkey, href⟩

/-- A load adds one to the count and one to the outstanding ones, while the counter has room. -/
theorem Sound.pin (hready : 0 ≤ b.refCnt) (hlimit : b.refCnt + 1 < 2 ^ 31) : ({ l with
        entries := (k, { b with refCnt := b.refCnt + 1 }) :: rest
        evictable := l.evictable - if b.refCnt = 0 then 1 else 0 } : Ledger κ).Sound numBlocks
      ((k, b.blockId) :: loads) stores := by
  obtain ⟨hkey, href⟩ := h.refCnt_of_ready hready
  have hcount : (((k, b.blockId) :: loads).map Prod.fst).count k =
      (loads.map Prod.fst).count k + 1 := by
    rw [map_cons, count_cons_self]
  have hnew := h.update ((k, b.blockId) :: loads) stores (b.refCnt + 1)
    (by rw [if_neg hkey, hcount, href]; push_cast; rfl) (fun _ _ => Iff.rfl)
    (fun j hj => by rw [map_cons, count_cons_of_ne (Ne.symm hj)]) h.stores_nodup
    (fun _ hd => hd) ?_ (by omega)
  · rw [if_neg (show ¬ b.refCnt + 1 = 0 by omega), if_neg (show ¬ b.refCnt + 1 = -1 by omega),
      if_neg (show ¬ b.refCnt = -1 by omega)] at hnew
    simpa using hnew
  · intro d hd
    rcases mem_cons.mp hd with rfl | hd
    · exact ⟨hkey, .inr rfl⟩
    · exact ⟨(h.loads_owned d hd).1, .inl hd⟩
end

/-- A completed load takes both back. -/
theorem Sound.unpin
    (h : ({ l with entries := (k, b) :: rest } : Ledger κ).Sound numBlocks
      ((k, id) :: loads) stores) :
    0 < b.refCnt ∧ b.refCnt < 2 ^ 31 ∧
    ({ l with
        entries := (k, { b with refCnt := b.refCnt - 1 }) :: rest
        evictable := l.evictable + if b.refCnt - 1 = 0 then 1 else 0 } : Ledger κ).Sound numBlocks
      loads stores := by
  have hkey := (h.loads_owned (k, id) mem_cons_self).1
  have href := h.refCnt_eq (k, b) mem_cons_self
  have hlt := h.loads_lt k
  dsimp only at href hkey
  rw [if_neg hkey] at href
  rw [map_cons, count_cons_self] at href hlt
  push_cast at href
  have hnew := h.update loads stores (b.refCnt - 1)
    (by rw [if_neg hkey, href]; ring) (fun _ _ => Iff.rfl)
    (fun j hj => by rw [map_cons, count_cons_of_ne (Ne.symm hj)]) h.stores_nodup
    (fun _ hd => hd)
    (fun d hd => ⟨(h.loads_owned d (mem_cons_of_mem _ hd)).1, .inl (mem_cons_of_mem _ hd)⟩)
    (by omega)
  refine ⟨by omega, by omega, ?_⟩
  rw [if_neg (show ¬ b.refCnt = 0 by omega), if_neg (show ¬ b.refCnt - 1 = -1 by omega),
    if_neg (show ¬ b.refCnt = -1 by omega)] at hnew
  simpa using hnew

/-- A store that succeeded makes its block ready, with no loads. -/
theorem Sound.commit
    (h : ({ l with entries := (k, b) :: rest } : Ledger κ).Sound numBlocks loads
      ((k, id) :: stores)) :
    b.refCnt = -1 ∧
    ({ l with
        entries := (k, { b with refCnt := 0 }) :: rest
        evictable := l.evictable + 1
        pending := l.pending - 1 } : Ledger κ).Sound numBlocks loads stores := by
  have href := h.refCnt_eq (k, b) mem_cons_self
  dsimp only at href
  rw [if_pos (by simp)] at href
  have hnodup := h.stores_nodup
  rw [map_cons, nodup_cons] at hnodup
  have hnone : (loads.map Prod.fst).count k = 0 := by
    rw [count_eq_zero]
    intro hmem
    obtain ⟨d, hd, hdk⟩ := mem_map.mp hmem
    exact (h.loads_owned d hd).1 (by simp [hdk])
  have hnew := h.update loads stores 0
    (by rw [if_neg hnodup.1, hnone]; rfl)
    (fun j hj => by simp [hj]) (fun _ _ => rfl) hnodup.2 (fun d hd => mem_cons_of_mem _ hd)
    (fun d hd => ⟨fun hmem => (h.loads_owned d hd).1 (by simp [hmem]), .inl hd⟩) (by omega)
  refine ⟨href, ?_⟩
  rw [if_pos rfl, if_neg (show ¬ b.refCnt = 0 by omega), if_neg (show ¬ (0 : ℤ) = -1 by omega),
    if_pos href] at hnew
  simpa using hnew

theorem perm_exchange (owned free victims fresh : List ℤ) :
    (owned ++ (free ++ victims ++ fresh)).Perm (victims ++ owned ++ (free ++ fresh)) := by
  rw [perm_iff_count]
  intro id
  simp only [count_append]
  omega

/-- A store that failed gives its id back to the free list. -/
theorem Sound.drop
    (h : ({ l with entries := (k, b) :: rest } : Ledger κ).Sound numBlocks loads
      ((k, id) :: stores)) :
    b.refCnt = -1 ∧
    ({ l with
        entries := rest
        freeList := l.freeList ++ [b.blockId]
        pending := l.pending - 1 } : Ledger κ).Sound numBlocks loads stores := by
  have href := h.refCnt_eq (k, b) mem_cons_self
  dsimp only at href
  rw [if_pos (by simp)] at href
  have hnodup := h.nodup
  have hstores := h.stores_nodup
  rw [map_cons, nodup_cons] at hnodup hstores
  -- another transfer never concerns the dropped key
  have hother : ∀ d : κ × ℤ, d.1 ≠ k → (∃ c, (d.1, c) ∈ (k, b) :: rest ∧ c.blockId = d.2) →
      ∃ c, (d.1, c) ∈ rest ∧ c.blockId = d.2 := by
    intro d hd h
    obtain ⟨c, hc, hid⟩ := h
    rcases mem_cons.mp hc with hc | hc
    · exact absurd (congrArg Prod.fst hc) hd
    · exact ⟨c, hc, hid⟩
  refine ⟨href, hnodup.2, h.allocated_le, ?_, ?_, ?_, ?_, hstores.2, ?_, ?_, h.loads_lt⟩
  · refine List.Perm.trans ?_ h.pool
    exact perm_exchange _ _ [b.blockId] _
  · have hold := h.evictable_eq
    rw [countP_cons_of_neg (by simp [href])] at hold
    exact hold
  · have hold := h.pending_eq
    rw [countP_cons_of_pos (by simp [href])] at hold
    push_cast at hold
    dsimp only at hold ⊢
    omega
  · intro e he
    have hne := ne_of_mem_rest h.nodup he
    have hmem : e.1 ∈ ((k, id) :: stores).map Prod.fst ↔ e.1 ∈ stores.map Prod.fst := by
      rw [map_cons, mem_cons]
      exact or_iff_right hne
    have hold := h.refCnt_eq e (mem_cons_of_mem _ he)
    simp only [hmem] at hold
    exact hold
  · intro d hd
    apply hother d _ (h.stores_owned d (mem_cons_of_mem _ hd))
    exact fun hdk => hstores.1 (mem_map.mpr ⟨d, hd, hdk⟩)
  · intro d hd
    obtain ⟨hready, howned⟩ := h.loads_owned d hd
    rw [map_cons, mem_cons, not_or] at hready
    exact ⟨hready.2, hother d hready.1 howned⟩

/-- Idle victims give their ids back. -/
theorem Sound.evict {victims : List (κ × BlockStatus)}
    (h : ({ l with entries := victims ++ rest } : Ledger κ).Sound numBlocks loads stores)
    (hidle : ∀ v ∈ victims, v.2.refCnt = 0) :
    ({ l with
        entries := rest
        freeList := l.freeList ++ (victims.map Prod.snd).map BlockStatus.blockId
        evictable := l.evictable - victims.length } : Ledger κ).Sound numBlocks loads stores := by
  have hnodup := h.nodup
  rw [map_append, nodup_append'] at hnodup
  have hcount : victims.countP (fun e => decide (e.2.refCnt = 0)) = victims.length :=
    countP_eq_length.mpr fun v hv => by simp [hidle v hv]
  have hnone : victims.countP (fun e => decide (e.2.refCnt = -1)) = 0 :=
    countP_eq_zero.mpr fun v hv => by simp [hidle v hv]
  -- a victim is read and written by nobody
  have hfree : ∀ v ∈ victims, v.1 ∉ stores.map Prod.fst ∧ v.1 ∉ loads.map Prod.fst := by
    intro v hv
    have href := h.refCnt_eq v (mem_append_left _ hv)
    rw [hidle v hv] at href
    split_ifs at href with hstore
    refine ⟨hstore, ?_⟩
    rw [← count_eq_zero]
    omega
  have hother : ∀ d : κ × ℤ, d.1 ∉ victims.map Prod.fst →
      (∃ c, (d.1, c) ∈ victims ++ rest ∧ c.blockId = d.2) →
      ∃ c, (d.1, c) ∈ rest ∧ c.blockId = d.2 := by
    intro d hd h
    obtain ⟨c, hc, hid⟩ := h
    rcases mem_append.mp hc with hc | hc
    · exact absurd (mem_map_of_mem hc) hd
    · exact ⟨c, hc, hid⟩
  refine ⟨hnodup.2.1, h.allocated_le, ?_, ?_, ?_, ?_, h.stores_nodup, ?_, ?_, h.loads_lt⟩
  · refine List.Perm.trans ?_ h.pool
    rw [map_append, map_map]
    exact perm_exchange _ _ _ _
  · have hold := h.evictable_eq
    rw [countP_append, hcount] at hold
    push_cast at hold
    dsimp only at hold ⊢
    omega
  · have hold := h.pending_eq
    rw [countP_append, hnone, Nat.zero_add] at hold
    exact hold
  · exact fun e he => h.refCnt_eq e (mem_append_right _ he)
  · intro d hd
    apply hother d _ (h.stores_owned d hd)
    intro hmem
    obtain ⟨v, hv, hvd⟩ := mem_map.mp hmem
    exact (hfree v hv).1 (hvd ▸ mem_map_of_mem hd)
  · intro d hd
    refine ⟨(h.loads_owned d hd).1, hother d ?_ (h.loads_owned d hd).2⟩
    intro hmem
    obtain ⟨v, hv, hvd⟩ := mem_map.mp hmem
    exact (hfree v hv).2 (hvd ▸ mem_map_of_mem hd)

/-- The ids of new blocks come from the free list or from those not handed out. -/
theorem Sound.reserve {reserved : List (κ × BlockStatus)} {free : List ℤ} {allocated : ℕ}
    (h : l.Sound numBlocks loads stores) (hkeys : (reserved.map Prod.fst).Nodup)
    (hnew : ∀ e ∈ reserved, e.1 ∉ l.entries.map Prod.fst)
    (hwritten : ∀ e ∈ reserved, e.2.refCnt = -1) (hle : allocated ≤ numBlocks)
    (hpool : (reserved.map (fun e => e.2.blockId) ++ (free ++ fresh numBlocks allocated)).Perm
      (l.freeList ++ fresh numBlocks l.allocated)) :
    ({ l with
        entries := reserved ++ l.entries
        freeList := free
        allocated := allocated
        pending := l.pending + reserved.length } : Ledger κ).Sound numBlocks loads
      (reserved.map (fun e => (e.1, e.2.blockId)) ++ stores) := by
  have hfst : (reserved.map fun e => (e.1, e.2.blockId)).map Prod.fst = reserved.map Prod.fst := by
    rw [map_map]
    rfl
  have hold : ∀ d : κ × ℤ, (∃ c, (d.1, c) ∈ l.entries ∧ c.blockId = d.2) →
      d.1 ∉ reserved.map Prod.fst := by
    intro d hd hmem
    obtain ⟨c, hc, -⟩ := hd
    obtain ⟨e, he, hed⟩ := mem_map.mp hmem
    exact hnew e he (hed ▸ mem_map_of_mem hc)
  have hgrow : ∀ d : κ × ℤ, (∃ c, (d.1, c) ∈ l.entries ∧ c.blockId = d.2) →
      ∃ c, (d.1, c) ∈ reserved ++ l.entries ∧ c.blockId = d.2 := by
    intro d hd
    obtain ⟨c, hc, hid⟩ := hd
    exact ⟨c, mem_append_right _ hc, hid⟩
  have hcount : reserved.countP (fun e => decide (e.2.refCnt = -1)) = reserved.length :=
    countP_eq_length.mpr fun e he => by simp [hwritten e he]
  have hnone : reserved.countP (fun e => decide (e.2.refCnt = 0)) = 0 :=
    countP_eq_zero.mpr fun e he => by simp [hwritten e he]
  refine ⟨?_, hle, ?_, ?_, ?_, ?_, ?_, ?_, ?_, h.loads_lt⟩
  · rw [map_append, nodup_append']
    refine ⟨hkeys, h.nodup, ?_⟩
    intro k hk hmem
    obtain ⟨e, he, rfl⟩ := mem_map.mp hk
    exact hnew e he hmem
  · have hswap : ∀ new owned free : List ℤ,
        (new ++ owned ++ free).Perm (owned ++ (new ++ free)) := by
      intro new owned free
      rw [← append_assoc]
      exact perm_append_comm.append_right free
    rw [map_append]
    exact (hswap _ _ _).trans ((hpool.append_left _).trans h.pool)
  · dsimp only
    rw [countP_append, hnone, Nat.zero_add]
    exact h.evictable_eq
  · dsimp only
    rw [countP_append, hcount, h.pending_eq]
    push_cast
    ring
  · intro e he
    rw [map_append, hfst]
    rcases mem_append.mp he with he | he
    · rw [if_pos (mem_append_left _ (mem_map_of_mem he))]
      exact hwritten e he
    · have hnot := hold (e.1, e.2.blockId) ⟨e.2, he, rfl⟩
      have hmem : e.1 ∈ reserved.map Prod.fst ++ stores.map Prod.fst ↔
          e.1 ∈ stores.map Prod.fst := by
        rw [mem_append]
        exact or_iff_right hnot
      simp only [hmem]
      exact h.refCnt_eq e he
  · rw [map_append, hfst, nodup_append']
    refine ⟨hkeys, h.stores_nodup, ?_⟩
    intro k hk hmem
    obtain ⟨d, hd, rfl⟩ := mem_map.mp hmem
    exact hold d (h.stores_owned d hd) hk
  · intro d hd
    rcases mem_append.mp hd with hd | hd
    · obtain ⟨e, he, rfl⟩ := mem_map.mp hd
      exact ⟨e.2, mem_append_left _ he, rfl⟩
    · exact hgrow d (h.stores_owned d hd)
  · intro d hd
    obtain ⟨hready, howned⟩ := h.loads_owned d hd
    refine ⟨?_, hgrow d howned⟩
    rw [map_append, hfst, mem_append, not_or]
    exact ⟨hold d howned, hready⟩
end

/-! ### Handing out ids -/

theorem fresh_split {numBlocks allocated n : ℕ} (hn : n ≤ numBlocks - allocated) :
    fresh numBlocks allocated =
      (List.range' allocated n).map Int.ofNat ++ fresh numBlocks (allocated + n) := by
  unfold fresh
  rw [← map_append, range'_append_1]
  congr 2
  omega

/-- Fresh ids and ids from the end of the free list, against what is left. -/
theorem handOut_perm {numBlocks allocated n reused : ℕ} (free : List ℤ)
    (hn : n ≤ numBlocks - allocated) :
    ((List.range' allocated n).map Int.ofNat ++ free.reverse.take reused ++
      (free.take (free.length - reused) ++ fresh numBlocks (allocated + n))).Perm
      (free ++ fresh numBlocks allocated) := by
  have htail : free.reverse.take reused = (free.drop (free.length - reused)).reverse := by
    rw [take_reverse]
  have hfree : (free.reverse.take reused ++ free.take (free.length - reused)).Perm free := by
    rw [htail]
    refine ((reverse_perm _).append_right _).trans ?_
    refine perm_append_comm.trans ?_
    rw [take_append_drop]
  rw [fresh_split hn]
  refine List.Perm.trans ?_ (hfree.append_right _)
  rw [perm_iff_count]
  intro id
  simp only [count_append]
  omega

end Ledger

end Vllm.Offload
