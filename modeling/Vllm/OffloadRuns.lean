import Vllm.OffloadPool

/-!
Sessions of calls on the CPU offload manager. Next to the manager stands what
its callers have outstanding: one record for each `prepareLoad` and
`prepareStore` that was not completed yet, with the keys and the block ids it
returned. In every session that stays within the width of the counters the pool
is conserved, under LRU and under ARC. A reference count that leaves 32 bits
breaks it.
-/
namespace Vllm.Offload

open Outcome CPUOffloadingManager List

variable {κ σ : Type} [DecidableEq κ]

structure Session (κ σ : Type) where
  manager : CPUOffloadingManager κ σ
  loads : List (Holdings κ)
  stores : List (Holdings κ)

/-- A call on the manager. A completion names the outstanding call it completes. -/
inductive PoolOp (κ : Type) where
  | lookup (key : κ)
  | touch (keys : List κ)
  | prepareLoad (keys : List κ)
  | completeLoad (call : Holdings κ)
  | prepareStore (keys : List κ)
  | completeStore (call : Holdings κ) (success : Bool)
  | resetCache

namespace Session

def onManager {α : Type} (op : EStateM Failure (CPUOffloadingManager κ σ) α) :
    EStateM Failure (Session κ σ) α :=
  zoom manager (fun s m => { s with manager := m }) op

variable (P : CachePolicy κ σ) (s : Session κ σ)

/-- One call, and what is outstanding after it. A reset voids what was. -/
def exec : PoolOp κ → EStateM Failure (Session κ σ) PUnit
  | .lookup _ => return ⟨⟩
  | .touch keys => modify fun s => { s with manager := s.manager.touch P keys }
  | .prepareLoad keys => do
    let ids ← onManager (prepareLoad P keys)
    modify fun s => { s with loads := keys.zip ids :: s.loads }
  | .completeLoad call => do
    onManager (completeLoad P (call.map Prod.fst))
    modify fun s => { s with loads := s.loads.erase call }
  | .prepareStore keys => do
    match ← onManager (prepareStore P keys) with
    | none => return ⟨⟩
    | some out => modify fun s => { s with stores := out.keysToStore.zip out.storeSpec :: s.stores }
  | .completeStore call success => do
    onManager (completeStore P (call.map Prod.fst) success)
    modify fun s => { s with stores := s.stores.erase call }
  | .resetCache => modify fun s => ⟨s.manager.resetCache P, [], []⟩

/-- What the callers promise: loads are of keys that a lookup finds, stores are of distinct
keys, a completion matches an outstanding call. -/
def Promised : PoolOp κ → Prop
  | .prepareLoad keys => ∀ k ∈ keys, s.manager.lookup P k = .hit
  | .completeLoad call => call ∈ s.loads
  | .prepareStore keys => keys.Nodup
  | .completeStore call _ => call ∈ s.stores
  | _ => True

/-- No key gets 2³¹ outstanding loads. -/
def WithinInt32 : PoolOp κ → Prop
  | .prepareLoad keys =>
    ∀ k ∈ keys, (s.loads.flatten.map Prod.fst).count k + keys.count k < 2 ^ 31
  | _ => True

/-- The sessions of calls that keep their promises and that `allowed` permits. -/
inductive Run (P : CachePolicy κ σ) (allowed : Session κ σ → PoolOp κ → Prop) (numBlocks : ℕ)
    (enableEvents : Bool) (storeThreshold maxTrackerSize : ℤ) : Session κ σ → Prop
  | start : Run P allowed numBlocks enableEvents storeThreshold maxTrackerSize
      ⟨.init P numBlocks enableEvents storeThreshold maxTrackerSize, [], []⟩
  | step {s t : Session κ σ} {op : PoolOp κ}
      (hrun : Run P allowed numBlocks enableEvents storeThreshold maxTrackerSize s)
      (hpromised : s.Promised P op) (hallowed : allowed s op)
      (hstep : (exec P op).run s = .ok ⟨⟩ t) :
      Run P allowed numBlocks enableEvents storeThreshold maxTrackerSize t

variable {P : CachePolicy κ σ} (L : P.Lawful)

def Booked (s : Session κ σ) : Prop :=
  s.manager.Booked L s.loads.flatten s.stores.flatten

variable {L}

theorem flatten_erase_perm {call : Holdings κ} {calls : List (Holdings κ)} (h : call ∈ calls) :
    (call ++ (calls.erase call).flatten).Perm calls.flatten := by
  have hperm := (perm_cons_erase h).flatten
  rw [flatten_cons] at hperm
  exact hperm.symm

/-- A promised call within the counters keeps the books, and no assertion fails: the only
error is that of a tracker that may hold nothing. -/
theorem exec_booked {s : Session κ σ} {op : PoolOp κ} (h : s.Booked L)
    (hpromised : s.Promised P op) (hwithin : s.WithinInt32 op) :
    Ensures (exec P op) s (fun _ t => t.Booked L)
      (fun e t => e = trackerEmpty ∧ s.manager.maxTrackerSize ≤ 0 ∧ t.Booked L) := by
  cases op with
  | lookup key => exact h
  | touch keys => exact CPUOffloadingManager.Booked.touch h keys
  | prepareLoad keys =>
    have hready : ∀ k ∈ keys, k ∈ (L.blocks s.manager.policy).map Prod.fst ∧
        k ∉ s.stores.flatten.map Prod.fst := by
      intro k hk
      have hhit := hpromised k hk
      unfold CPUOffloadingManager.lookup at hhit
      split at hhit
      · cases hhit
      next b hget =>
        split_ifs at hhit with hready
        obtain ⟨rest, hperm, hsound, -⟩ := h.entry hget
        refine ⟨?_, (hsound.refCnt_of_ready hready).1⟩
        exact (hperm.map Prod.fst).mem_iff.mpr (by simp)
    unfold exec onManager
    rw [ensures_bind, ensures_zoom]
    refine (prepareLoad_spec keys h hready hwithin).mono ?_ (fun _ _ hf => hf.elim)
    intro ids m hm
    rw [ensures_modify]
    exact hm.2
  | completeLoad call =>
    unfold exec onManager
    rw [ensures_bind, ensures_zoom]
    have hsplit := h.perm (flatten_erase_perm hpromised) (.refl _)
    refine (completeLoad_spec call hsplit).mono ?_ (fun _ _ hf => hf.elim)
    intro _ m hm
    exact hm
  | prepareStore keys =>
    unfold exec onManager
    rw [ensures_bind, ensures_zoom]
    refine (prepareStore_spec keys hpromised h).mono ?_ (fun _ _ he => he)
    intro r m hm
    cases r with
    | none => exact hm.1
    | some out => exact hm.2
  | completeStore call success =>
    unfold exec onManager
    rw [ensures_bind, ensures_zoom]
    have hsplit := h.perm (.refl _) (flatten_erase_perm hpromised)
    refine (completeStore_spec call success hsplit).mono ?_ (fun _ _ hf => hf.elim)
    intro _ m hm
    exact hm
  | resetCache => exact CPUOffloadingManager.Booked.resetCache h

theorem init_booked {numBlocks : ℕ} (hfits : numBlocks ≤ 2 ^ 63) (enableEvents : Bool)
    (storeThreshold maxTrackerSize : ℤ) :
    (⟨.init P numBlocks enableEvents storeThreshold maxTrackerSize, [], []⟩ :
      Session κ σ).Booked L := by
  obtain ⟨hvalid, hblocks⟩ := L.init numBlocks
  refine ⟨hvalid, ?_, hfits⟩
  unfold ledger CPUOffloadingManager.init
  dsimp only
  rw [hblocks]
  exact Ledger.sound_empty numBlocks

section
variable {numBlocks : ℕ} {enableEvents : Bool} {storeThreshold maxTrackerSize : ℤ}
  {s : Session κ σ}

/-- Within the range of the counters every session keeps sound books. -/
theorem Run.booked (hfits : numBlocks ≤ 2 ^ 63)
    (hrun : Run P WithinInt32 numBlocks enableEvents storeThreshold maxTrackerSize s) :
    s.Booked L := by
  induction hrun with
  | start => exact init_booked hfits enableEvents storeThreshold maxTrackerSize
  | step _ hpromised hallowed hstep ih => exact (exec_booked ih hpromised hallowed).of_ok hstep

variable (L)

/-- The pool is conserved: the ids of the entries, the free ids and the ids not handed out
are those from 0 to `num_blocks - 1`, each once; the counters count the idle and the
written entries; and every outstanding transfer still owns the block it was given. -/
structure Conserved (s : Session κ σ) : Prop where
  pool : ((L.blocks s.manager.policy).map (fun e => e.2.blockId) ++ (s.manager.freeList ++
      Ledger.fresh s.manager.numBlocks s.manager.numAllocatedBlocks)).Perm
    ((List.range s.manager.numBlocks).map Int.ofNat)
  evictable_eq : s.manager.numEvictableCacheBlocks =
    (L.blocks s.manager.policy).countP fun e => e.2.refCnt = 0
  pending_eq : s.manager.numWritePendingBlocks =
    (L.blocks s.manager.policy).countP fun e => e.2.refCnt = -1
  owned : ∀ call ∈ s.loads ++ s.stores, ∀ d ∈ call,
    ∃ b, P.get s.manager.policy d.1 = some b ∧ b.blockId = d.2 ∧ b.refCnt ≠ 0

/-- What the callers can rely on in a state: the pool is conserved, a promised call within
the counters fails no assertion and no lookup (the only error is that of a tracker which
may hold no key), and a store that finds no room changes neither the policy nor the ids. -/
structure Reliable (s : Session κ σ) : Prop where
  conserved : s.Conserved L
  succeeds : ∀ op, s.Promised P op → s.WithinInt32 op →
    ∀ e t, (exec P op).run s = .error e t → e = trackerEmpty ∧ s.manager.maxTrackerSize ≤ 0
  refused : ∀ keys m, keys.Nodup → (prepareStore P keys).run s.manager = .ok none m →
    m.policy = s.manager.policy ∧ m.freeList = s.manager.freeList ∧
      m.numAllocatedBlocks = s.manager.numAllocatedBlocks

variable {L}

/-- Sound books are all that the callers need. -/
theorem Booked.reliable (h : s.Booked L) : s.Reliable L where
  conserved :=
    { pool := h.sound.pool
      evictable_eq := h.sound.evictable_eq
      pending_eq := h.sound.pending_eq
      owned := by
        intro call hcall d hd
        rcases mem_append.mp hcall with hcall | hcall
        · have hmem : d ∈ s.loads.flatten := mem_flatten.mpr ⟨call, hcall, hd⟩
          obtain ⟨hready, b, hb, hid⟩ := h.sound.loads_owned d hmem
          have href := h.sound.refCnt_eq (d.1, b) hb
          rw [if_neg hready] at href
          refine ⟨b, (L.get_eq_some_iff h.valid).mpr hb, hid, ?_⟩
          have hpos : 0 < (s.loads.flatten.map Prod.fst).count d.1 :=
            count_pos_iff.mpr (mem_map_of_mem hmem)
          dsimp only at href
          omega
        · have hmem : d ∈ s.stores.flatten := mem_flatten.mpr ⟨call, hcall, hd⟩
          obtain ⟨b, hb, hid⟩ := h.sound.stores_owned d hmem
          have href := h.sound.refCnt_eq (d.1, b) hb
          rw [if_pos (mem_map_of_mem hmem)] at href
          refine ⟨b, (L.get_eq_some_iff h.valid).mpr hb, hid, ?_⟩
          dsimp only at href
          omega }
  succeeds := by
    intro op hpromised hwithin e t hfail
    have herror := (exec_booked h hpromised hwithin).of_error hfail
    exact ⟨herror.1, herror.2.1⟩
  refused := by
    intro keys m hkeys hnone
    obtain ⟨-, c, rfl⟩ := (prepareStore_spec keys hkeys h).of_ok hnone
    exact ⟨rfl, rfl, rfl⟩

/-- In every session whose loads stay below 2³¹ for each key, over a pool whose ids fit in
64 bits, the pool is reliable in every state, under LRU and under ARC. -/
theorem offload_pool_conserved (F : FloatRounding) (numBlocks : ℕ) (hfits : numBlocks ≤ 2 ^ 63)
    (enableEvents : Bool) (storeThreshold maxTrackerSize : ℤ) :
    (∀ s : Session κ (LRUCachePolicy κ),
      Run lru WithinInt32 numBlocks enableEvents storeThreshold maxTrackerSize s →
        s.Reliable lruLawful) ∧
    ∀ s : Session κ (ARCCachePolicy κ),
      Run (arc F) WithinInt32 numBlocks enableEvents storeThreshold maxTrackerSize s →
        s.Reliable (arcLawful F) :=
  ⟨fun _ hrun => (hrun.booked hfits).reliable, fun _ hrun => (hrun.booked hfits).reliable⟩
end

/-! ### A stored block, and a count that leaves 32 bits -/

def oneBlock : Session ℕ (LRUCachePolicy ℕ) := ⟨.init lru 1 false 0 64000, [], []⟩

def writtenKey : Session ℕ (LRUCachePolicy ℕ) where
  manager :=
    { oneBlock.manager with
      numAllocatedBlocks := 1
      numWritePendingBlocks := 1
      policy := ⟨.empty, OrderedDict.empty.set 7 (.new 0)⟩ }
  loads := []
  stores := [[(7, (BlockStatus.new 0).blockId)]]

def storedKey : Session ℕ (LRUCachePolicy ℕ) where
  manager :=
    { oneBlock.manager with
      numAllocatedBlocks := 1
      numEvictableCacheBlocks := 1
      policy := ⟨OrderedDict.empty.set 7 ⟨⟩,
        OrderedDict.empty.set 7 { BlockStatus.new 0 with refCnt := 0 }⟩ }
  loads := []
  stores := []

theorem run_storedKey {allowed : Session ℕ (LRUCachePolicy ℕ) → PoolOp ℕ → Prop}
    (hallowed : ∀ s op, s.WithinInt32 op → allowed s op) :
    Run lru allowed 1 false 0 64000 storedKey := by
  have hnodup : oneBlock.Promised lru (.prepareStore [7]) := nodup_singleton 7
  have hcall : writtenKey.Promised lru (.completeStore [(7, (BlockStatus.new 0).blockId)] true) :=
    mem_singleton_self _
  have hprepare : Run lru allowed 1 false 0 64000 writtenKey :=
    .step .start hnodup (hallowed _ _ trivial) rfl
  exact .step hprepare hcall (hallowed _ _ trivial) rfl

theorem offload_pool_conserved_loadedKey :
    (1 : ℕ) ≤ 2 ^ 63 ∧ ∃ s : Session ℕ (LRUCachePolicy ℕ),
      Run lru WithinInt32 1 false 0 64000 s ∧ s.loads = [[(7, 0)]] ∧ s.Reliable lruLawful := by
  have hfits : (1 : ℕ) ≤ 2 ^ 63 := by decide
  obtain ⟨s, hexec, hloads⟩ : ∃ s, (exec lru (.prepareLoad [7])).run storedKey = .ok ⟨⟩ s ∧
      s.loads = [[(7, 0)]] := ⟨_, rfl, rfl⟩
  have hhit : storedKey.Promised lru (.prepareLoad [7]) := by
    intro k hk
    rw [mem_singleton.mp hk]
    rfl
  have hwithin : storedKey.WithinInt32 (.prepareLoad [7]) := by
    intro k hk
    rw [mem_singleton.mp hk]
    decide
  have hrun : Run lru WithinInt32 1 false 0 64000 s :=
    .step (run_storedKey fun _ _ h => h) hhit hwithin hexec
  exact ⟨hfits, s, hrun, hloads,
    (offload_pool_conserved exactRounding 1 hfits false 0 64000).1 s hrun⟩

variable {m : CPUOffloadingManager ℕ (LRUCachePolicy ℕ)} {k : ℕ} {b : BlockStatus}

/-- A load of a busy block counts up in 32 bits, whatever the count was. -/
theorem prepareLoad_busy (hget : lru.get m.policy k = some b) (hbusy : 0 < b.refCnt) :
    Ensures (prepareLoad lru [k]) m
      (fun ids t => ids = [b.blockId] ∧
        lru.get t.policy k = some { b with refCnt := cInt32 (b.refCnt + 1) })
      fun _ _ => False := by
  unfold prepareLoad pinBlock
  rw [mapM_cons, ensures_bind, ensures_bind, ensures_get, ensures_bind, ensures_expect]
  refine ⟨?_, by simp [hget]⟩
  intro block hblock
  obtain rfl : b = block := Option.some.inj (hget.symm.trans hblock)
  rw [ensures_bind, ensures_check]
  refine ⟨fun _ => ?_, fun hnot => hnot (le_of_lt hbusy)⟩
  rw [ensures_bind, ensures_onlyIf]
  refine ⟨fun hidle => absurd hidle hbusy.ne', fun _ => ?_⟩
  rw [ensures_bind, ensures_modify, ensures_pure, ensures_bind]
  exact ⟨rfl, OrderedDict.get?_adjust_self hget⟩

/-- No load of a block whose count is not positive can be completed. -/
theorem completeLoad_negative (hget : lru.get m.policy k = some b) (hneg : b.refCnt ≤ 0) :
    Ensures (completeLoad lru [k]) m (fun _ _ => False)
      fun e _ => e = .assertionError "Block ref_cnt is already 0" := by
  unfold completeLoad unpinBlock
  change Ensures (forM [k] _) m _ _
  rw [forM_cons, ensures_bind, ensures_bind, ensures_get, ensures_bind, ensures_expect]
  refine ⟨?_, by simp [hget]⟩
  intro block hblock
  obtain rfl : b = block := Option.some.inj (hget.symm.trans hblock)
  rw [ensures_bind, ensures_check]
  exact ⟨fun hpos => absurd hpos (not_lt.mpr hneg), fun _ => rfl⟩

theorem run_prepareLoad {s : Session κ σ} {keys : List κ} {ids : List ℤ}
    {m : CPUOffloadingManager κ σ} (hrun : (prepareLoad P keys).run s.manager = .ok ids m) :
    (exec P (.prepareLoad keys)).run s = .ok ⟨⟩ ⟨m, keys.zip ids :: s.loads, s.stores⟩ := by
  have hexec : Ensures (exec P (.prepareLoad keys)) s
      (fun _ t => t = ⟨m, keys.zip ids :: s.loads, s.stores⟩) fun _ _ => False := by
    unfold exec onManager
    rw [ensures_bind, ensures_zoom]
    exact ensures_of_run_ok hrun rfl
  obtain ⟨_, t, ht, rfl⟩ := hexec.exists_ok
  exact ht

/-- Key 7 is loaded as often as its count can hold, then once more. -/
theorem overflow_of_loads {keys : List ℕ} (hkeys : ∀ k ∈ keys, k = 7)
    (hcount : keys.count 7 = 2147483647) :
    ∃ s : Session ℕ (LRUCachePolicy ℕ), Run lru (fun _ _ => True) 1 false 0 64000 s ∧
      ∃ call ∈ s.loads, ∃ t, (exec lru (.completeLoad call)).run s =
        .error (.assertionError "Block ref_cnt is already 0") t := by
  have hbooked : storedKey.Booked lruLawful := (run_storedKey fun _ _ h => h).booked (by decide)
  have hstored : Run lru (fun _ _ => True) 1 false 0 64000 storedKey :=
    run_storedKey fun _ _ _ => trivial
  have hhit : storedKey.Promised lru (.prepareLoad keys) := by
    intro k hk
    rw [hkeys k hk]
    rfl
  -- the loads that fit keep the books
  have hmany := prepareLoad_spec keys hbooked
    (fun k hk => by rw [hkeys k hk]; exact ⟨mem_singleton_self _, by simp [storedKey]⟩)
    (fun k hk => by rw [hkeys k hk, hcount]; simp [storedKey])
  obtain ⟨ids, m, hrun, hlen, hm⟩ := hmany.exists_ok
  have hfull : Run lru (fun _ _ => True) 1 false 0 64000 ⟨m, [keys.zip ids], []⟩ :=
    .step hstored hhit trivial (run_prepareLoad hrun)
  have hfst : (keys.zip ids ++ []).map Prod.fst = keys := by
    rw [append_nil]
    exact map_fst_zip (by omega)
  have hmem : 7 ∈ (lruLawful.blocks m.policy).map Prod.fst := by
    have hseven : 7 ∈ (keys.zip ids ++ []).map Prod.fst := by
      rw [hfst]
      exact count_pos_iff.mp (by omega)
    obtain ⟨d, hd, hdk⟩ := mem_map.mp hseven
    obtain ⟨-, c, hc, -⟩ := hm.sound.loads_owned d hd
    exact hdk ▸ mem_map_of_mem hc
  obtain ⟨b, hget, href⟩ := hm.ready hmem (by simp [storedKey])
  rw [show storedKey.loads.flatten = [] from rfl, hfst, hcount] at href
  -- the last one wraps the count
  obtain ⟨_, m', hrun', rfl, hget'⟩ := (prepareLoad_busy hget (by omega)).exists_ok
  have hlast : Run lru (fun _ _ => True) 1 false 0 64000
      ⟨m', [[(7, b.blockId)], keys.zip ids], []⟩ := by
    have hstep := run_prepareLoad (s := ⟨m, [keys.zip ids], []⟩) hrun'
    refine .step hfull ?_ trivial hstep
    intro k hk
    have hready : b.isReady := by
      unfold BlockStatus.isReady
      omega
    rw [mem_singleton.mp hk, CPUOffloadingManager.lookup, hget]
    exact if_neg (not_not.mpr hready)
  have hwrap : cInt32 (b.refCnt + 1) = -2147483648 := by
    rw [href]
    decide
  rw [hwrap] at hget'
  refine ⟨_, hlast, [(7, b.blockId)], mem_cons_self, ?_⟩
  have hexec : Ensures (exec lru (.completeLoad [(7, b.blockId)]))
      ⟨m', [[(7, b.blockId)], keys.zip ids], []⟩ (fun _ _ => False)
      fun e _ => e = .assertionError "Block ref_cnt is already 0" := by
    unfold exec onManager
    rw [ensures_bind, ensures_zoom]
    exact (completeLoad_negative hget' (by dsimp only; omega)).mono (fun _ _ hf => hf.elim)
      fun _ _ he => he
  obtain ⟨_, t, ht, rfl⟩ := hexec.exists_error
  exact ⟨t, ht⟩

/-- After 2³¹ loads of key 7 its count is negative, and the completion of an outstanding
load fails its assertion. -/
theorem load_count_overflow :
    ∃ s : Session ℕ (LRUCachePolicy ℕ), Run lru (fun _ _ => True) 1 false 0 64000 s ∧
      ∃ call ∈ s.loads, ∃ t, (exec lru (.completeLoad call)).run s =
        .error (.assertionError "Block ref_cnt is already 0") t :=
  overflow_of_loads (fun _ hk => eq_of_mem_replicate hk) count_replicate_self

end Session

end Vllm.Offload
