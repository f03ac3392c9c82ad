import Vllm.EncoderCache

/-!
The books of the encoder cache. The scheduler checks an item, asks for room when
it is not cached, and allocates the admitted items once the request is
scheduled; in between only references are dropped. Along every such sequence of
calls the two counters, the reclaimable entries and the references agree, and
no call fails.
-/
namespace Vllm.EncoderAccounting

open OrderedDict

open Outcome CacheManagers EncoderCache EncoderCacheManager List Function Option

abbrev Items := RequestId → List EncoderInput

/-- An item that `can_allocate` admitted and that is not allocated yet. -/
structure Admitted where
  request : EncoderRequest
  inputId : ℕ
  input : EncoderInput
  feature : request.mmFeatures[inputId]? = some input

def embedsOf (pending : List Admitted) : ℤ := (pending.map fun a => (a.input.getNumEmbeds : ℤ)).sum

theorem embedsOf_nonneg (pending : List Admitted) : 0 ≤ embedsOf pending := by
  apply List.sum_nonneg
  intro x hx
  obtain ⟨a, -, rfl⟩ := mem_map.mp hx
  exact Int.natCast_nonneg _

def refs (s : EncoderCacheManager) (h : MmHash) : Finset RequestId := (s.cached.get? h).getD ∅

/-- The request is the one its id stands for, and its items have the embeds
that their identifiers promise. -/
structure Known (embeds : MmHash → ℕ) (items : Items) (request : EncoderRequest) : Prop where
  items : items request.requestId = request.mmFeatures
  counted : ∀ f ∈ request.mmFeatures, f.getNumEmbeds = embeds f.identifier

/-- A request references exactly the entries of the items it has cached. -/
def Refers (items : Items) (refs : MmHash → Finset RequestId) (ids : RequestId → Finset ℕ) :
    Prop :=
  ∀ h r, r ∈ refs h ↔ ∃ i ∈ ids r, ∃ f, (items r)[i]? = some f ∧ f.identifier = h

/-- The books of the manager, with the admitted items. -/
structure Balanced (embeds : MmHash → ℕ) (items : Items) (s : EncoderCacheManager)
    (pending : List Admitted) : Prop where
  free : s.numFreeSlots = s.cacheSize - s.cached.sum fun h _ => embeds h
  freeable : s.numFreeableSlots = s.numFreeSlots + s.freeable.sum fun _ e => e
  /-- Only referenced entries take room away for good. -/
  referenced : s.numFreeableSlots =
    s.cacheSize - s.cached.sum fun h refs => if refs = ∅ then 0 else embeds h
  sizes : ∀ h e, (h, e) ∈ s.freeable.entries → e = embeds h
  reclaimable : ∀ h, h ∈ s.freeable.keys ↔ (h, ∅) ∈ s.cached.entries
  references : Refers items (refs s) s.getCachedInputIds
  ids : ∀ r, ∀ i ∈ s.getCachedInputIds r, i < (items r).length
  known : ∀ a ∈ pending, Known embeds items a.request
  room : embedsOf pending ≤ s.numFreeSlots
  fresh : ∀ a ∈ pending, a.input.identifier ∉ s.cached.keys
  distinct : pending.Pairwise fun a b => a.input.identifier ≠ b.input.identifier

section
variable {s : EncoderCacheManager} {h k : MmHash} {r q : RequestId} {i : ℕ}

theorem refs_of_mem {x : Finset RequestId} (hx : (h, x) ∈ s.cached.entries) : refs s h = x := by
  rw [refs, get?_eq_some_iff.mpr hx, getD_some]

theorem refs_of_notMem (hh : h ∉ s.cached.keys) : refs s h = ∅ := by
  rw [refs, get?_eq_none_iff.mpr hh, getD_none]

theorem mem_entries_refs (hh : h ∈ s.cached.keys) : (h, refs s h) ∈ s.cached.entries := by
  obtain ⟨x, hx⟩ := mem_keys_iff.mp hh
  rwa [refs_of_mem hx]

theorem getCachedInputIds_addCachedId : (s.addCachedId r i).getCachedInputIds =
    Function.update s.getCachedInputIds r (insert i (s.getCachedInputIds r)) := by
  funext q
  unfold addCachedId getCachedInputIds
  by_cases hq : q = r
  · subst hq
    simp
  · simp [get?_set_of_ne hq, hq]

theorem getCachedInputIds_discardCachedId : (s.discardCachedId r i).getCachedInputIds =
    Function.update s.getCachedInputIds r ((s.getCachedInputIds r).erase i) := by
  funext q
  unfold discardCachedId
  cases hids : s.requestCachedIds.get? r with
  | none =>
    by_cases hq : q = r
    · subst hq
      simp [getCachedInputIds, hids]
    · simp [hq]
  | some ids =>
    unfold getCachedInputIds
    dsimp only
    by_cases hq : q = r
    · subst hq
      split
      next hempty => simp [hids, hempty]
      next => simp [hids]
    · rw [update_of_ne hq]
      split
      · rw [get?_erase_of_ne hq]
      · rw [get?_set_of_ne hq]

theorem discardCachedId_eq : s.discardCachedId r i =
    { s with requestCachedIds := (s.discardCachedId r i).requestCachedIds } := by
  unfold discardCachedId
  split <;> rfl

theorem refs_set {t : EncoderCacheManager} {x : Finset RequestId}
    (ht : t.cached = s.cached.set h x) : refs t = Function.update (refs s) h x := by
  funext k
  unfold refs
  rw [ht]
  by_cases hk : k = h
  · subst hk
    simp
  · simp [get?_set_of_ne hk, hk]
end

section
variable {items : Items} {R : MmHash → Finset RequestId} {I : RequestId → Finset ℕ}
  {r : RequestId} {i : ℕ} {f : EncoderInput}

/-- One more cached item adds one reference to its entry. -/
theorem Refers.insert (h : Refers items R I) (hf : (items r)[i]? = some f) :
    Refers items (Function.update R f.identifier (insert r (R f.identifier)))
      (Function.update I r (insert i (I r))) := by
  intro k q
  by_cases hq : q = r
  · subst hq
    by_cases hk : k = f.identifier
    · subst hk
      simp [hf]
    · have hold := h k q
      simp only [update_of_ne hk, update_self, hold, Finset.mem_insert,
        exists_eq_or_imp, hf, Option.some.injEq]
      constructor
      · exact .inr
      · rintro (⟨g, rfl, hg⟩ | hrest)
        · exact absurd hg.symm hk
        · exact hrest
  · rw [update_of_ne hq, ← h k q]
    by_cases hk : k = f.identifier
    · subst hk
      simp [hq]
    · rw [update_of_ne hk]

/-- An occurrence goes while the request keeps another one. -/
theorem Refers.erase_kept (h : Refers items R I) (hf : (items r)[i]? = some f)
    (hother : ∃ j ∈ (I r).erase i, ∃ g, (items r)[j]? = some g ∧ g.identifier = f.identifier) :
    Refers items R (Function.update I r ((I r).erase i)) := by
  intro k q
  rw [h k q]
  by_cases hq : q = r
  · subst hq
    rw [update_self]
    constructor
    · rintro ⟨j, hj, g, hg, hgk⟩
      by_cases hji : j = i
      · subst hji
        have hsame : g = f := Option.some.inj (hg.symm.trans hf)
        subst hsame
        rw [← hgk]
        exact hother
      · exact ⟨j, Finset.mem_erase.mpr ⟨hji, hj⟩, g, hg, hgk⟩
    · rintro ⟨j, hj, hrest⟩
      exact ⟨j, Finset.mem_of_mem_erase hj, hrest⟩
  · rw [update_of_ne hq]

/-- The last occurrence takes the reference with it. -/
theorem Refers.erase_last (h : Refers items R I) (hf : (items r)[i]? = some f)
    (hlast : ¬ ∃ j ∈ (I r).erase i, ∃ g, (items r)[j]? = some g ∧ g.identifier = f.identifier) :
    Refers items (Function.update R f.identifier ((R f.identifier).erase r))
      (Function.update I r ((I r).erase i)) := by
  intro k q
  by_cases hq : q = r
  · subst hq
    rw [update_self]
    by_cases hk : k = f.identifier
    · subst hk
      rw [update_self]
      exact iff_of_false (Finset.notMem_erase _ _) hlast
    · rw [update_of_ne hk, h k q]
      constructor
      · rintro ⟨j, hj, g, hg, hgk⟩
        refine ⟨j, Finset.mem_erase.mpr ⟨?_, hj⟩, g, hg, hgk⟩
        rintro rfl
        have hsame : g = f := Option.some.inj (hg.symm.trans hf)
        exact hk (hsame ▸ hgk.symm)
      · rintro ⟨j, hj, hrest⟩
        exact ⟨j, Finset.mem_of_mem_erase hj, hrest⟩
  · rw [update_of_ne hq, ← h k q]
    by_cases hk : k = f.identifier
    · subst hk
      simp [hq]
    · rw [update_of_ne hk]
end

/-! ### The calls keep the books -/

section
variable {embeds : MmHash → ℕ} {items : Items} {s : EncoderCacheManager}
  {pending : List Admitted} {request : EncoderRequest} {i : ℕ} {f : EncoderInput}

theorem Known.embeds_eq (hreq : Known embeds items request)
    (hf : request.mmFeatures[i]? = some f) : f.getNumEmbeds = embeds f.identifier :=
  hreq.counted f (mem_of_getElem? hf)

theorem Known.get (hreq : Known embeds items request) (hf : request.mmFeatures[i]? = some f) :
    (items request.requestId)[i]? = some f := by
  rw [hreq.items, hf]

variable {σ : Type} {a : Admitted} {e : ℕ} {E : Failure → σ → Prop} {t : EncoderCacheManager}

theorem ensures_feature {t : σ} {Q : EncoderInput → σ → Prop}
    (hf : request.mmFeatures[i]? = some f) : Ensures (request.feature i) t Q E ↔ Q f t := by
  simp [EncoderRequest.feature, hf, expect]

theorem ensures_getNumEncoderEmbeds {t : σ} {Q : ℕ → σ → Prop}
    (hf : request.mmFeatures[i]? = some f) :
    Ensures (request.getNumEncoderEmbeds i) t Q E ↔ Q f.getNumEmbeds t := by
  simp [EncoderRequest.getNumEncoderEmbeds, hf, expect]

section
variable (hs : Balanced embeds items s pending)
include hs

theorem Balanced.ids_discard (r : RequestId) :
    ∀ q, ∀ j ∈ (s.discardCachedId r i).getCachedInputIds q, j < (items q).length := by
  intro q j hj
  rw [getCachedInputIds_discardCachedId] at hj
  by_cases hq : q = r
  · subst hq
    rw [update_self] at hj
    exact hs.ids q j (Finset.mem_of_mem_erase hj)
  · rw [update_of_ne hq] at hj
    exact hs.ids q j hj

section
variable (hreq : Known embeds items request)
include hreq

section
variable (hf : request.mmFeatures[i]? = some f)
include hf

theorem Balanced.ids_add : ∀ q, ∀ j ∈ (s.addCachedId request.requestId i).getCachedInputIds q,
      j < (items q).length := by
  intro q j hj
  rw [getCachedInputIds_addCachedId] at hj
  by_cases hq : q = request.requestId
  · subst hq
    rw [update_self, Finset.mem_insert] at hj
    rcases hj with rfl | hj
    · exact (List.getElem?_eq_some_iff.mp (hreq.get hf)).1
    · exact hs.ids _ j hj
  · rw [update_of_ne hq] at hj
    exact hs.ids q j hj

/-- A cached item gains a reference and an id; it is no longer reclaimable. -/
theorem Balanced.reference (hmem : f.identifier ∈ s.cached.keys)
    (hsize : t.cacheSize = s.cacheSize) (hslots : t.numFreeSlots = s.numFreeSlots)
    (hcached : t.cached = s.cached.set f.identifier
      (insert request.requestId (refs s f.identifier)))
    (hids : t.getCachedInputIds = Function.update s.getCachedInputIds request.requestId
      (insert i (s.getCachedInputIds request.requestId)))
    (hfreeable : t.freeable = s.freeable.erase f.identifier)
    (hreclaimed : t.numFreeableSlots = s.numFreeableSlots -
      if refs s f.identifier = ∅ then embeds f.identifier else 0) :
    Balanced embeds items t pending where
  free := by
    have hsum := sum_set_of_mem (fun h _ => (embeds h : ℤ))
      (v := insert request.requestId (refs s f.identifier)) (mem_entries_refs hmem)
    rw [hsize, hslots, hcached, hsum, hs.free]
    omega
  freeable := by
    rw [hreclaimed, hs.freeable, hslots, hfreeable]
    by_cases hempty : refs s f.identifier = ∅
    · have hentry := mem_entries_refs hmem
      rw [hempty, ← hs.reclaimable] at hentry
      obtain ⟨e, he⟩ := mem_keys_iff.mp hentry
      rw [sum_erase_of_mem _ he, if_pos hempty, hs.sizes _ e he]
      omega
    · have hnot : f.identifier ∉ s.freeable.keys := by
        rw [hs.reclaimable]
        exact fun hentry => hempty (refs_of_mem hentry)
      rw [erase_of_notMem hnot, if_neg hempty]
      omega
  referenced := by
    have hsum := sum_set_of_mem
      (fun h refs => if refs = ∅ then 0 else (embeds h : ℤ))
      (v := insert request.requestId (refs s f.identifier)) (mem_entries_refs hmem)
    rw [if_neg (Finset.insert_ne_empty _ _)] at hsum
    rw [hreclaimed, hs.referenced, hsize, hcached, hsum]
    split <;> omega
  sizes := by
    intro h e he
    rw [hfreeable, mem_entries_erase] at he
    exact hs.sizes h e he.1
  reclaimable := by
    intro h
    rw [hfreeable, hcached, mem_keys_erase, mem_entries_set, hs.reclaimable]
    have hne : (h, ∅) ≠ (f.identifier, insert request.requestId (refs s f.identifier)) :=
      fun heq => Finset.insert_ne_empty _ _ (Prod.ext_iff.mp heq).2.symm
    exact ⟨.inr, fun hor => hor.resolve_left hne⟩
  references := by
    rw [refs_set hcached, hids]
    exact hs.references.insert (hreq.get hf)
  ids := by
    rw [hids, ← getCachedInputIds_addCachedId]
    exact hs.ids_add hreq hf
  known := hs.known
  room := by
    rw [hslots]
    exact hs.room
  fresh := by
    intro a ha hkey
    rw [hcached, mem_keys_set] at hkey
    rcases hkey with hkey | hkey
    · exact hs.fresh a ha (hkey ▸ hmem)
    · exact hs.fresh a ha hkey
  distinct := hs.distinct

/-- A cached item is referenced once more and taken from the reclaimable entries; a missing one
changes nothing. -/
theorem checkAndUpdateCache_balanced : Ensures (checkAndUpdateCache request i) s
      (fun cached t => Balanced embeds items t pending ∧
        (cached = false → t = s ∧ f.identifier ∉ s.cached.keys))
      (fun _ _ => False) := by
  unfold checkAndUpdateCache
  rw [ensures_bind, ensures_feature hf, ensures_bind, ensures_get]
  cases hget : s.cached.get? f.identifier with
  | none =>
    exact ⟨hs, fun _ => ⟨rfl, get?_eq_none_iff.mp hget⟩⟩
  | some x =>
    have hentry := get?_eq_some_iff.mp hget
    have hx : refs s f.identifier = x := refs_of_mem hentry
    have hmem := keys_of_mem hentry
    subst hx
    simp only [ensures_bind, ensures_onlyIf, ensures_modify, ensures_expect, ensures_pure]
    constructor
    · intro hempty
      constructor
      · intro e he
        have hsize := hs.sizes _ e (get?_eq_some_iff.mp he)
        refine ⟨hs.reference hreq hf hmem rfl rfl rfl ?_ rfl ?_, fun hbad => Bool.noConfusion hbad⟩
        · exact getCachedInputIds_addCachedId
        · rw [if_pos hempty, hsize]
          rfl
      · intro hnone
        rw [hempty, ← hs.reclaimable] at hentry
        exact get?_eq_none_iff.mp hnone hentry
    · intro hheld
      have hnot : f.identifier ∉ s.freeable.keys := by
        rw [hs.reclaimable]
        exact fun h => hheld (refs_of_mem h)
      refine ⟨hs.reference hreq hf hmem rfl rfl rfl ?_ ?_ ?_, fun hbad => Bool.noConfusion hbad⟩
      · exact getCachedInputIds_addCachedId
      · exact (erase_of_notMem hnot).symm
      · rw [if_neg hheld]
        exact (Int.sub_zero _).symm
end

end
end

def evicted (s : EncoderCacheManager) (h : MmHash) (e : ℕ) : EncoderCacheManager :=
  { s with
    freeable := s.freeable.erase h
    cached := s.cached.erase h
    freed := s.freed ++ [h]
    numFreeSlots := s.numFreeSlots + e }

theorem refs_evicted {h : MmHash} (hentry : (h, ∅) ∈ s.cached.entries) :
    refs (evicted s h e) = refs s := by
  funext k
  by_cases hk : k = h
  · subst hk
    rw [refs_of_mem hentry]
    apply refs_of_notMem
    simp [evicted]
  · unfold refs evicted
    rw [get?_erase_of_ne hk]

/-- An evicted entry gives its slots to the free ones; the freeable ones counted them already. -/
theorem Balanced.evict (hs : Balanced embeds items s pending) {h : MmHash}
    (he : (h, e) ∈ s.freeable.entries) : Balanced embeds items (evicted s h e) pending := by
  have hentry := (hs.reclaimable h).mp (keys_of_mem he)
  have hsize := hs.sizes h e he
  constructor
  case free =>
    have hsum := sum_erase_of_mem (fun h _ => (embeds h : ℤ)) hentry
    have hfree := hs.free
    simp only [evicted]
    omega
  case freeable =>
    have hsum := sum_erase_of_mem (fun _ (e : ℕ) => (e : ℤ)) he
    have hfreeable := hs.freeable
    simp only [evicted]
    omega
  case referenced =>
    have hsum := sum_erase_of_mem
      (fun h refs => if refs = ∅ then 0 else (embeds h : ℤ)) hentry
    rw [if_pos rfl] at hsum
    have hreferenced := hs.referenced
    simp only [evicted]
    omega
  case sizes =>
    intro k x hx
    exact hs.sizes k x (mem_entries_erase.mp hx).1
  case reclaimable =>
    intro k
    simp only [evicted, mem_keys_erase, mem_entries_erase, hs.reclaimable]
  case references =>
    rw [refs_evicted hentry]
    exact hs.references
  case ids => exact hs.ids
  case known => exact hs.known
  case room =>
    have hroom := hs.room
    simp only [evicted]
    omega
  case fresh =>
    intro a ha hkey
    exact hs.fresh a ha (mem_keys_erase.mp hkey).1
  case distinct => exact hs.distinct

/-- The loop stops with enough free slots, because the reclaimable entries cover the request. -/
theorem evictLoop_balanced (numEmbeds : ℤ) (entries : List (MmHash × ℕ))
    (s : EncoderCacheManager) (hs : Balanced embeds items s pending)
    (hentries : s.freeable.entries = entries) (hfits : numEmbeds ≤ s.numFreeableSlots) :
    Ensures (evictLoop numEmbeds entries) s
      (fun _ t => Balanced embeds items t pending ∧ numEmbeds ≤ t.numFreeSlots ∧
        t.cached.keys ⊆ s.cached.keys)
      (fun _ _ => False) := by
  induction entries generalizing s with
  | nil =>
    have hsum : s.freeable.sum (fun _ e => (e : ℤ)) = 0 := by simp [OrderedDict.sum, hentries]
    have hfree : numEmbeds ≤ s.numFreeSlots := by
      have hfreeable := hs.freeable
      omega
    simp only [evictLoop, ensures_bind, ensures_get, ensures_check]
    exact ⟨fun _ => ⟨hs, hfree, List.Subset.refl _⟩, fun hnot => hnot hfree⟩
  | cons entry entries ih =>
    obtain ⟨h, e⟩ := entry
    have he : (h, e) ∈ s.freeable.entries := by simp [hentries]
    have hkey := keys_of_mem ((hs.reclaimable h).mp (keys_of_mem he))
    rw [evictLoop, ensures_bind, ensures_get, ensures_ite]
    constructor
    · intro _
      simp only [ensures_bind, ensures_check, ensures_set]
      refine ⟨fun _ => ?_, fun hnot => hnot hkey⟩
      have hrest : (evicted s h e).freeable.entries = entries := by
        have hnodup := s.freeable.nodup
        rw [hentries, map_cons, nodup_cons] at hnodup
        unfold evicted OrderedDict.erase
        dsimp only
        rw [hentries, filter_cons_of_neg (by simp)]
        apply filter_eq_self.mpr
        intro x hx
        have hne : x.1 ≠ h := fun hxh => hnodup.1 (mem_map.mpr ⟨x, hx, hxh⟩)
        simp [hne]
      apply (ih (evicted s h e) (hs.evict he) hrest hfits).mono
      · intro _ t ht
        refine ⟨ht.1, ht.2.1, ?_⟩
        intro k hk
        exact (mem_keys_erase.mp (ht.2.2 hk)).1
      · exact fun _ _ hfalse => hfalse
    · intro hfree
      exact ⟨hs, Int.not_lt.mp hfree, List.Subset.refl _⟩

section
variable (hs : Balanced embeds items s pending)
include hs

/-- `can_allocate` returns, and room it promises is there. -/
theorem canAllocate_balanced (hf : request.mmFeatures[i]? = some f)
    (encoderComputeBudget numEmbedsToSchedule : ℤ) :
    Ensures (canAllocate request i encoderComputeBudget numEmbedsToSchedule) s
      (fun fits t => Balanced embeds items t pending ∧ t.cached.keys ⊆ s.cached.keys ∧
        (fits = true → f.getNumEmbeds + numEmbedsToSchedule ≤ t.numFreeSlots))
      (fun _ _ => False) := by
  unfold canAllocate
  rw [ensures_bind, ensures_getNumEncoderEmbeds hf, ensures_ite]
  constructor
  · intro _
    exact ⟨hs, List.Subset.refl _, fun h => nomatch h⟩
  · intro _
    rw [ensures_bind, ensures_get, ensures_ite]
    constructor
    · intro hfits
      exact ⟨hs, List.Subset.refl _, fun _ => hfits⟩
    · intro _
      rw [ensures_ite]
      constructor
      · intro _
        exact ⟨hs, List.Subset.refl _, fun h => nomatch h⟩
      · intro hfits
        rw [ensures_bind]
        apply (evictLoop_balanced _ s.freeable.entries s hs rfl (Int.not_lt.mp hfits)).mono
        · intro _ t ht
          exact ⟨ht.1, ht.2.2, fun _ => ht.2.1⟩
        · exact fun _ _ hfalse => hfalse

/-- An admitted item that is neither cached nor admitted already. -/
theorem Balanced.admitted (hreq : Known embeds items a.request)
    (hfresh : a.input.identifier ∉ s.cached.keys)
    (hnew : ∀ b ∈ pending, b.input.identifier ≠ a.input.identifier)
    (hroom : a.input.getNumEmbeds + embedsOf pending ≤ s.numFreeSlots) :
    Balanced embeds items s (pending ++ [a]) :=
  { hs with
    known := by
      intro b hb
      rcases mem_append.mp hb with hb | hb
      · exact hs.known b hb
      · rwa [mem_singleton.mp hb]
    room := by
      simp only [embedsOf, map_append, sum_append, map_cons, map_nil,
        sum_singleton] at hroom ⊢
      omega
    fresh := by
      intro b hb
      rcases mem_append.mp hb with hb | hb
      · exact hs.fresh b hb
      · rwa [mem_singleton.mp hb]
    distinct := by
      rw [pairwise_append]
      refine ⟨hs.distinct, pairwise_singleton _ _, ?_⟩
      intro b hb c hc
      rw [mem_singleton.mp hc]
      exact hnew b hb }

omit hs in
theorem mem_insert_admitted {before after : List Admitted} {b : Admitted}
    (hb : b ∈ before ++ after) : b ∈ before ++ a :: after := by
  rcases mem_append.mp hb with hb | hb
  · exact mem_append_left _ hb
  · exact mem_append_right _ (mem_cons_of_mem _ hb)

omit hs in
/-- The room that a pending list has made sure of covers one of its items beside the others. -/
theorem Balanced.room_middle {before after : List Admitted}
    (hs : Balanced embeds items s (before ++ a :: after)) :
    a.input.getNumEmbeds + embedsOf (before ++ after) ≤ s.numFreeSlots := by
  have hroom := hs.room
  simp only [embedsOf, map_append, map_cons, sum_append, sum_cons] at hroom ⊢
  omega

omit hs in
/-- An admitted item enters the cache with its one reference and takes its slots. -/
theorem Balanced.enter {before after : List Admitted}
    (hs : Balanced embeds items s (before ++ a :: after))
    (hsize : t.cacheSize = s.cacheSize) (hfreeable : t.freeable = s.freeable)
    (hcached : t.cached = s.cached.set a.input.identifier {a.request.requestId})
    (hids : t.getCachedInputIds = Function.update s.getCachedInputIds a.request.requestId
      (insert a.inputId (s.getCachedInputIds a.request.requestId)))
    (hslots : t.numFreeSlots = s.numFreeSlots - a.input.getNumEmbeds)
    (hreclaimed : t.numFreeableSlots = s.numFreeableSlots - a.input.getNumEmbeds) :
    Balanced embeds items t (before ++ after) := by
  have ha : a ∈ before ++ a :: after := by simp
  have hreq := hs.known a ha
  have hfresh := hs.fresh a ha
  have hembeds := hreq.embeds_eq a.feature
  have hpair := hs.distinct
  rw [pairwise_middle (fun h => Ne.symm h), pairwise_cons] at hpair
  constructor
  case free =>
    have hsum := OrderedDict.sum_set_of_notMem (fun h _ => (embeds h : ℤ))
      (v := ({a.request.requestId} : Finset RequestId)) hfresh
    rw [hslots, hs.free, hsize, hcached, hsum]
    omega
  case freeable =>
    rw [hreclaimed, hs.freeable, hslots, hfreeable]
    omega
  case referenced =>
    have hsum := OrderedDict.sum_set_of_notMem
      (fun h refs => if refs = ∅ then 0 else (embeds h : ℤ))
      (v := ({a.request.requestId} : Finset RequestId)) hfresh
    rw [if_neg (Finset.singleton_ne_empty _)] at hsum
    rw [hreclaimed, hs.referenced, hsize, hcached, hsum]
    omega
  case sizes =>
    rw [hfreeable]
    exact hs.sizes
  case reclaimable =>
    intro h
    rw [hfreeable, hcached, OrderedDict.mem_entries_set, hs.reclaimable, Prod.mk.injEq]
    constructor
    · intro hentry
      exact .inr ⟨hentry, fun heq => hfresh (heq ▸ OrderedDict.keys_of_mem hentry)⟩
    · rintro (⟨-, hempty⟩ | ⟨hentry, -⟩)
      · exact absurd hempty.symm (Finset.singleton_ne_empty _)
      · exact hentry
  case references =>
    have hinsert := hs.references.insert (hreq.get a.feature)
    rw [refs_of_notMem hfresh] at hinsert
    rw [refs_set hcached, hids]
    exact hinsert
  case ids =>
    rw [hids, ← getCachedInputIds_addCachedId]
    exact hs.ids_add hreq a.feature
  case known => exact fun b hb => hs.known b (mem_insert_admitted hb)
  case room =>
    have hroom := hs.room_middle
    rw [hslots]
    omega
  case fresh =>
    intro b hb hkey
    rw [hcached, OrderedDict.mem_keys_set] at hkey
    rcases hkey with hkey | hkey
    · exact hpair.1 b hb hkey.symm
    · exact hs.fresh b (mem_insert_admitted hb) hkey
  case distinct => exact hpair.2

omit hs in
/-- An allocation takes the slots that its admission has made sure of. -/
theorem allocate_balanced {before after : List Admitted}
    (hs : Balanced embeds items s (before ++ a :: after)) :
    Ensures (allocate a.request a.inputId) s
      (fun _ t => Balanced embeds items t (before ++ after)) (fun _ _ => False) := by
  have hfresh := hs.fresh a (by simp)
  have hroom := hs.room_middle
  have hpending := embedsOf_nonneg (before ++ after)
  have hfreeable : s.numFreeSlots ≤ s.numFreeableSlots := by
    have hsum : 0 ≤ s.freeable.sum fun _ e => (e : ℤ) :=
      OrderedDict.sum_nonneg fun _ _ _ => Int.natCast_nonneg _
    have := hs.freeable
    omega
  unfold allocate
  rw [ensures_bind, ensures_feature a.feature, ensures_bind, ensures_modify, if_neg hfresh,
    ensures_bind, ensures_getNumEncoderEmbeds a.feature]
  simp only [ensures_bind, ensures_get, ensures_check, ensures_modify, OrderedDict.get?_set_self,
    getD_some, OrderedDict.set_set, insert_empty_eq]
  refine ⟨fun _ => ⟨fun _ => ?_, fun hnot => hnot (by omega)⟩, fun hnot => hnot (by omega)⟩
  exact hs.enter rfl rfl rfl getCachedInputIds_addCachedId rfl rfl

omit hs in
theorem holdsOther_eq_true_iff (hreq : Known embeds items request) :
    s.holdsOther request f.identifier = true ↔ ∃ j ∈ s.getCachedInputIds request.requestId,
      ∃ g, (items request.requestId)[j]? = some g ∧ g.identifier = f.identifier := by
  simp only [holdsOther, decide_eq_true_eq, hreq.items, map_eq_some_iff]

theorem Balanced.discard (r : RequestId) (hrefers : Refers items (refs s)
      (Function.update s.getCachedInputIds r ((s.getCachedInputIds r).erase i))) :
    Balanced embeds items (s.discardCachedId r i) pending := by
  have hids := hs.ids_discard (i := i) r
  rw [← getCachedInputIds_discardCachedId] at hrefers
  rw [discardCachedId_eq] at hids hrefers ⊢
  exact { hs with references := hrefers, ids := hids }

/-- The last occurrence of an item that other requests may still hold. -/
theorem Balanced.dereference (hheld : refs s f.identifier ≠ ∅) {r : RequestId}
    (hsize : t.cacheSize = s.cacheSize) (hslots : t.numFreeSlots = s.numFreeSlots)
    (hcached : t.cached = s.cached.set f.identifier ((refs s f.identifier).erase r))
    (hrefers : Refers items (Function.update (refs s) f.identifier ((refs s f.identifier).erase r))
      t.getCachedInputIds) (hids : ∀ q, ∀ j ∈ t.getCachedInputIds q, j < (items q).length)
    (hfreeable : t.freeable = if (refs s f.identifier).erase r = ∅ then
      s.freeable.set f.identifier (embeds f.identifier) else s.freeable)
    (hreclaimed : t.numFreeableSlots = s.numFreeableSlots +
      if (refs s f.identifier).erase r = ∅ then embeds f.identifier else 0) :
    Balanced embeds items t pending := by
  have hmem : f.identifier ∈ s.cached.keys := by
    by_contra hnot
    exact hheld (refs_of_notMem hnot)
  have hnot : f.identifier ∉ s.freeable.keys := by
    rw [hs.reclaimable]
    exact fun h => hheld (refs_of_mem h)
  constructor
  case free =>
    have hsum := sum_set_of_mem (fun h _ => (embeds h : ℤ))
      (v := (refs s f.identifier).erase r) (mem_entries_refs hmem)
    rw [hsize, hslots, hcached, hsum, hs.free]
    omega
  case freeable =>
    rw [hreclaimed, hs.freeable, hslots, hfreeable]
    split
    · rw [sum_set_of_notMem _ hnot]
      omega
    · omega
  case referenced =>
    have hsum := sum_set_of_mem
      (fun h refs => if refs = ∅ then 0 else (embeds h : ℤ))
      (v := (refs s f.identifier).erase r) (mem_entries_refs hmem)
    rw [hreclaimed, hs.referenced, hsize, hcached, hsum]
    split <;> omega
  case sizes =>
    intro h e he
    rw [hfreeable] at he
    split at he
    · rcases mem_entries_set.mp he with heq | ⟨he, -⟩
      · obtain ⟨rfl, rfl⟩ := Prod.mk.inj heq
        rfl
      · exact hs.sizes h e he
    · exact hs.sizes h e he
  case reclaimable =>
    intro h
    rw [hfreeable, hcached, mem_entries_set]
    by_cases hh : h = f.identifier
    · subst hh
      by_cases hlast : (refs s f.identifier).erase r = ∅
      · simp [hlast]
      · simp [hlast, hnot, Ne.symm hlast]
    · by_cases hlast : (refs s f.identifier).erase r = ∅
      · simp [hlast, hh, hs.reclaimable]
      · simp [hlast, hh, hs.reclaimable]
  case references =>
    rw [refs_set hcached]
    exact hrefers
  case ids => exact hids
  case known => exact hs.known
  case room =>
    rw [hslots]
    exact hs.room
  case fresh =>
    intro a ha hkey
    rw [hcached, mem_keys_set] at hkey
    rcases hkey with hkey | hkey
    · exact hs.fresh a ha (hkey ▸ hmem)
    · exact hs.fresh a ha hkey
  case distinct => exact hs.distinct

/-- A freed item drops its reference unless the request holds the same item elsewhere. -/
theorem freeEncoderInput_balanced (hreq : Known embeds items request)
    (hf : request.mmFeatures[i]? = some f) :
    Ensures (freeEncoderInput request i) s (fun _ t => Balanced embeds items t pending ∧
        t.getCachedInputIds = Function.update s.getCachedInputIds request.requestId
          ((s.getCachedInputIds request.requestId).erase i))
      (fun _ _ => False) := by
  set u := s.discardCachedId request.requestId i with hu
  have huids : u.getCachedInputIds = Function.update s.getCachedInputIds request.requestId
      ((s.getCachedInputIds request.requestId).erase i) := getCachedInputIds_discardCachedId
  have hucached : u.cached = s.cached := by rw [hu, discardCachedId_eq]
  have hget : (u.cached.get? f.identifier).getD ∅ = refs s f.identifier := by
    rw [hucached]
    rfl
  have hother := holdsOther_eq_true_iff (s := u) (f := f) hreq
  rw [huids, update_self] at hother
  unfold freeEncoderInput
  simp only [ensures_bind, ensures_feature hf, ensures_modify, ensures_get, ensures_onlyIf,
    ensures_getNumEncoderEmbeds hf, ← hu, hget]
  constructor
  · rintro ⟨hheld, hlast⟩
    have hrefers := hs.references.erase_last (hreq.get hf)
      (hother.not.mp (by simp [hlast]))
    rw [← huids] at hrefers
    have hids := hs.ids_discard (i := i) request.requestId
    have hufreeable : u.freeable = s.freeable := by rw [hu, discardCachedId_eq]
    have husize : u.cacheSize = s.cacheSize := by rw [hu, discardCachedId_eq]
    have huslots : u.numFreeSlots = s.numFreeSlots := by rw [hu, discardCachedId_eq]
    have hureclaimed : u.numFreeableSlots = s.numFreeableSlots := by rw [hu, discardCachedId_eq]
    constructor
    · intro hempty
      refine ⟨hs.dereference hheld husize huslots ?_ hrefers hids ?_ ?_, huids⟩
      · rw [← hucached]
      · rw [if_pos hempty, ← hreq.embeds_eq hf, ← hufreeable]
      · rw [if_pos hempty, ← hreq.embeds_eq hf, ← hureclaimed]
    · intro hrest
      refine ⟨hs.dereference hheld husize huslots ?_ hrefers hids ?_ ?_, huids⟩
      · rw [← hucached]
      · rw [if_neg hrest, ← hufreeable]
      · rw [if_neg hrest, ← hureclaimed, Nat.cast_zero, Int.add_zero]
  · intro hkept
    refine ⟨hs.discard request.requestId ?_, huids⟩
    by_cases hhold : u.holdsOther request f.identifier = true
    · exact hs.references.erase_kept (hreq.get hf) (hother.mp hhold)
    · have hempty : refs s f.identifier = ∅ := by
        by_contra hheld
        exact hkept ⟨hheld, by simpa using hhold⟩
      have hrefers := hs.references.erase_last (hreq.get hf) (hother.not.mp hhold)
      rwa [hempty, Finset.erase_empty, ← hempty, update_eq_self] at hrefers

theorem free_balanced (hreq : Known embeds items request) :
    Ensures (EncoderCacheManager.free request) s (fun _ t => Balanced embeds items t pending)
      (fun _ _ => False) := by
  unfold EncoderCacheManager.free
  apply ensures_forM (I := fun t => Balanced embeds items t pending)
  · intro i hi t ht
    have hlt := hs.ids request.requestId i ((Finset.mem_sort _).mp hi)
    rw [hreq.items] at hlt
    apply (freeEncoderInput_balanced ht hreq (getElem?_eq_getElem hlt)).mono
    · exact fun _ _ h => h.1
    · exact fun _ _ h => h
  · exact hs
end

theorem create_balanced (cacheSize : ℕ) : Balanced embeds items (create cacheSize) [] where
  free := by simp [create]
  freeable := by simp [create]
  referenced := by simp [create]
  sizes := fun _ _ h => nomatch h
  reclaimable := fun _ => by simp [create, OrderedDict.empty, OrderedDict.keys]
  references := fun _ _ => by simp [refs, create, getCachedInputIds]
  ids := fun _ _ h => by simp [create, getCachedInputIds] at h
  known := fun _ h => nomatch h
  room := by simp [embedsOf, create]
  fresh := fun _ h => nomatch h
  distinct := List.Pairwise.nil

/-- Between calls of `schedule` a request id may stand for more items, or for
others once nothing is cached for it. -/
theorem Balanced.renew (hs : Balanced embeds items s []) (r : RequestId)
    {newItems : List EncoderInput}
    (hnew : s.getCachedInputIds r = ∅ ∨ items r <+: newItems) :
    Balanced embeds (Function.update items r newItems) s [] := by
  have hsame : ∀ q, ∀ i ∈ s.getCachedInputIds q,
      (Function.update items r newItems q)[i]? = (items q)[i]? := by
    intro q i hi
    by_cases hq : q = r
    · subst hq
      rw [update_self]
      rcases hnew with hempty | hprefix
      · rw [hempty] at hi
        exact absurd hi (Finset.notMem_empty i)
      · obtain ⟨more, rfl⟩ := hprefix
        exact getElem?_append_left (hs.ids q i hi)
    · rw [update_of_ne hq]
  have hrefers : Refers (Function.update items r newItems) (refs s) s.getCachedInputIds := by
    intro h q
    rw [hs.references h q]
    apply exists_congr
    intro i
    apply and_congr_right
    intro hi
    rw [hsame q i hi]
  have hids : ∀ q, ∀ i ∈ s.getCachedInputIds q,
      i < (Function.update items r newItems q).length := by
    intro q i hi
    have hlt := hs.ids q i hi
    by_contra hnot
    have hnone := getElem?_eq_none (Nat.not_lt.mp hnot)
    rw [hsame q i hi, getElem?_eq_none_iff] at hnone
    omega
  exact { hs with references := hrefers, ids := hids, known := fun _ h => nomatch h }
end

/-! ### Sequences of calls -/

/-- The calls that the scheduler issues. `pending` are the items that
`can_allocate` admitted for the request being scheduled: they are counted in the
next `can_allocate`, and allocated, or forgotten when the request is not
scheduled after all. -/
inductive Calls (cacheSize : ℕ) (embeds : MmHash → ℕ) :
    EncoderCacheManager → Items → List Admitted → Prop
  | create (items : Items) : Calls cacheSize embeds (create cacheSize) items []
  | renewed {s items} (r : RequestId) (newItems : List EncoderInput)
      (hs : Calls cacheSize embeds s items [])
      (hnew : s.getCachedInputIds r = ∅ ∨ items r <+: newItems) :
      Calls cacheSize embeds s (Function.update items r newItems) []
  | checked {s t items pending request i cached}
      (hs : Calls cacheSize embeds s items pending) (hreq : Known embeds items request)
      (hi : i < request.mmFeatures.length)
      (hrun : (checkAndUpdateCache request i).run s = .ok cached t) :
      Calls cacheSize embeds t items pending
  | admitted {s t items pending} {a : Admitted} {budget : ℤ}
      (hs : Calls cacheSize embeds s items pending) (hreq : Known embeds items a.request)
      (hfresh : a.input.identifier ∉ s.cached.keys)
      (hnew : ∀ b ∈ pending, b.input.identifier ≠ a.input.identifier)
      (hrun : (canAllocate a.request a.inputId budget (embedsOf pending)).run s = .ok true t) :
      Calls cacheSize embeds t items (pending ++ [a])
  | passedOver {s t items pending request i fits} {budget : ℤ}
      (hs : Calls cacheSize embeds s items pending) (hi : i < request.mmFeatures.length)
      (hrun : (canAllocate request i budget (embedsOf pending)).run s = .ok fits t) :
      Calls cacheSize embeds t items pending
  | allocated {s t items before after} {a : Admitted}
      (hs : Calls cacheSize embeds s items (before ++ a :: after))
      (hrun : (allocate a.request a.inputId).run s = .ok ⟨⟩ t) :
      Calls cacheSize embeds t items (before ++ after)
  | forgotten {s items pending} (hs : Calls cacheSize embeds s items pending) :
      Calls cacheSize embeds s items []
  | freedInput {s t items pending request i} (hs : Calls cacheSize embeds s items pending)
      (hreq : Known embeds items request) (hi : i ∈ s.getCachedInputIds request.requestId)
      (hrun : (freeEncoderInput request i).run s = .ok ⟨⟩ t) :
      Calls cacheSize embeds t items pending
  | freed {s t items pending request} (hs : Calls cacheSize embeds s items pending)
      (hreq : Known embeds items request)
      (hrun : (EncoderCacheManager.free request).run s = .ok ⟨⟩ t) :
      Calls cacheSize embeds t items pending
  | reset {s t items} (hs : Calls cacheSize embeds s items [])
      (hrun : EncoderCacheManager.reset.run s = .ok ⟨⟩ t) : Calls cacheSize embeds t items []
  | reported {s t items mmHashes} (hs : Calls cacheSize embeds s items [])
      (hrun : getFreedMmHashes.run s = .ok mmHashes t) : Calls cacheSize embeds t items []

section
variable {cacheSize : ℕ} {embeds : MmHash → ℕ} {items : Items} {s : EncoderCacheManager}
  {pending : List Admitted}

/-- After any calls of the scheduler the books are balanced. -/
theorem Calls.balanced (h : Calls cacheSize embeds s items pending) :
    Balanced embeds items s pending := by
  induction h with
  | create items => exact create_balanced cacheSize
  | renewed r newItems _ hnew ih => exact ih.renew r hnew
  | checked _ hreq hi hrun ih =>
    exact ((checkAndUpdateCache_balanced ih hreq (getElem?_eq_getElem hi)).of_ok hrun).1
  | admitted _ hreq hfresh hnew hrun ih =>
    obtain ⟨hkept, hkeys, hroom⟩ := (canAllocate_balanced ih (Admitted.feature _) _ _).of_ok hrun
    exact hkept.admitted hreq (fun hmem => hfresh (hkeys hmem)) hnew (hroom rfl)
  | passedOver _ hi hrun ih =>
    exact ((canAllocate_balanced ih (getElem?_eq_getElem hi) _ _).of_ok hrun).1
  | allocated _ hrun ih => exact (allocate_balanced ih).of_ok hrun
  | forgotten _ ih =>
    have hroom : embedsOf [] ≤ EncoderCacheManager.numFreeSlots _ :=
      (embedsOf_nonneg _).trans ih.room
    exact { ih with
      room := hroom
      known := fun _ h => nomatch h
      fresh := fun _ h => nomatch h
      distinct := List.Pairwise.nil }
  | freedInput _ hreq hi hrun ih =>
    have hlt := ih.ids _ _ hi
    rw [hreq.items] at hlt
    exact ((freeEncoderInput_balanced ih hreq (getElem?_eq_getElem hlt)).of_ok hrun).1
  | freed _ hreq hrun ih => exact (free_balanced ih hreq).of_ok hrun
  | reset _ hrun ih =>
    cases hrun
    exact create_balanced _
  | reported _ hrun ih =>
    cases hrun
    exact { ih with }

theorem Balanced.bounds (hs : Balanced embeds items s pending) :
    0 ≤ s.numFreeSlots ∧ s.numFreeSlots ≤ s.numFreeableSlots ∧
      s.numFreeableSlots ≤ s.cacheSize := by
  have hfreeable : 0 ≤ s.freeable.sum fun _ e => (e : ℤ) :=
    sum_nonneg fun _ _ _ => Int.natCast_nonneg _
  have hreferenced : 0 ≤ s.cached.sum fun h refs => if refs = ∅ then 0 else (embeds h : ℤ) := by
    apply OrderedDict.sum_nonneg
    intro h x _
    split
    · exact le_refl 0
    · exact Int.natCast_nonneg _
  have hpending := embedsOf_nonneg pending
  have hroom := hs.room
  have hslots := hs.freeable
  have htotal := hs.referenced
  omega

def Returns {α : Type} (m : CacheM α) (s : EncoderCacheManager) : Prop := ∃ a t, m.run s = .ok a t

theorem returns_of_ensures {α : Type} {m : CacheM α} {Q : α → EncoderCacheManager → Prop}
    (h : Ensures m s Q (fun _ _ => False)) : Returns m s := by
  obtain ⟨a, t, hrun, -⟩ := h.exists_ok
  exact ⟨a, t, hrun⟩

/-- After every sequence of calls of the scheduler the books are exact: the
slots are those of the cached entries, the reclaimable slots those of the
entries without reference, and the references those of the cached ids. No call
that may come next fails. -/
theorem encoder_accounting_exact (h : Calls cacheSize embeds s items pending) :
    s.numFreeSlots = s.cacheSize - s.cached.sum (fun h _ => embeds h) ∧
    s.numFreeableSlots = s.numFreeSlots + s.freeable.sum (fun _ e => e) ∧
    (∀ h e, (h, e) ∈ s.freeable.entries → e = embeds h) ∧
    (∀ h, h ∈ s.freeable.keys ↔ (h, ∅) ∈ s.cached.entries) ∧
    (0 ≤ s.numFreeSlots ∧ s.numFreeSlots ≤ s.cacheSize) ∧
    (0 ≤ s.numFreeableSlots ∧ s.numFreeableSlots ≤ s.cacheSize) ∧
    (∀ h r, r ∈ refs s h ↔ ∃ i ∈ s.getCachedInputIds r, ∃ f, (items r)[i]? = some f ∧
      f.identifier = h) ∧
    (∀ a ∈ pending, Returns (allocate a.request a.inputId) s) ∧
    (∀ request, ∀ i < request.mmFeatures.length, ∀ budget scheduled,
      Returns (canAllocate request i budget scheduled) s) ∧
    (∀ request, Known embeds items request →
      (∀ i < request.mmFeatures.length, Returns (checkAndUpdateCache request i) s ∧
        Returns (freeEncoderInput request i) s) ∧
      Returns (EncoderCacheManager.free request) s) := by
  have hs := h.balanced
  obtain ⟨hfree, hle, hsize⟩ := hs.bounds
  refine ⟨hs.free, hs.freeable, hs.sizes, hs.reclaimable, ⟨hfree, hle.trans hsize⟩,
    ⟨hfree.trans hle, hsize⟩, hs.references, ?_, ?_, ?_⟩
  · intro a ha
    obtain ⟨before, after, rfl⟩ := append_of_mem ha
    exact returns_of_ensures (allocate_balanced hs)
  · intro request i hi budget scheduled
    exact returns_of_ensures
      (canAllocate_balanced hs (getElem?_eq_getElem hi) budget scheduled)
  · intro request hreq
    refine ⟨fun i hi => ⟨?_, ?_⟩, ?_⟩
    · exact returns_of_ensures
        (checkAndUpdateCache_balanced hs hreq (getElem?_eq_getElem hi))
    · exact returns_of_ensures
        (freeEncoderInput_balanced hs hreq (getElem?_eq_getElem hi))
    · exact returns_of_ensures (free_balanced hs hreq)
end

def oneItem : EncoderRequest where
  requestId := 0
  mmFeatures := [⟨⟨"image", ⟨0, 2⟩⟩, none⟩]

def oneItemCached : EncoderCacheManager :=
  match (allocate oneItem 0).run (create 4) with
  | .ok _ t => t
  | .error _ t => t

theorem encoder_accounting_one_item :
    Calls 4 (fun _ => 2) oneItemCached (fun _ => oneItem.mmFeatures) [] ∧
      oneItemCached.numFreeSlots = 2 ∧
      oneItemCached.numFreeSlots = 4 - oneItemCached.cached.sum fun _ _ => 2 := by
  have hknown : Known (fun _ => 2) (fun _ => oneItem.mmFeatures) oneItem :=
    ⟨rfl, by simp [oneItem, EncoderInput.getNumEmbeds]⟩
  have hadmitted : Calls 4 (fun _ => 2) (create 4) (fun _ => oneItem.mmFeatures)
      [⟨oneItem, 0, ⟨⟨"image", ⟨0, 2⟩⟩, none⟩, rfl⟩] :=
    .admitted (.create _) hknown (by decide) (fun _ h => nomatch h)
      (show (canAllocate oneItem 0 2 (embedsOf [])).run (create 4) = .ok true (create 4) from rfl)
  have hcached : Calls 4 (fun _ => 2) oneItemCached (fun _ => oneItem.mmFeatures) [] :=
    .allocated (show Calls 4 (fun _ => 2) _ _ ([] ++ _ :: []) from hadmitted) rfl
  exact ⟨hcached, rfl, (encoder_accounting_exact hcached).1⟩

/-! ### The scheduler issues such calls -/

section
variable {cacheSize : ℕ} {embeds : MmHash → ℕ} {items : Items} {cfg : EncoderConfig}
  {c : EncoderChunk}

theorem ensures_dispatch_shared {α : Type} {m : CacheM α}
    {k : EncoderDecoderCacheManager.CountM α} {s : EncoderCacheManager}
    {Q : α → EncoderManager → Prop} {E : Failure → EncoderManager → Prop} :
    Ensures (EncoderManager.dispatch m k) (.shared s) Q E ↔
      Ensures m s (fun a t => Q a (.shared t)) (fun e t => E e (.shared t)) := by
  unfold Ensures EncoderManager.dispatch
  simp only [EStateM.run]
  cases m s <;> rfl

structure Collected (c : EncoderChunk) (pass : EncoderPass) (pending : List Admitted) : Prop where
  request : ∀ a ∈ pending, a.request = c.request
  hashes : pending.map (·.input.identifier) = pass.mmHashesToSchedule
  embeds : embedsOf pending = pass.numEmbedsToSchedule
  ids : (pending.map (·.inputId)).Perm
    (pass.encoderInputsToSchedule ++ pass.externalLoadEncoderInput)

/-- The manager is in a state that calls lead to, with the items of the pass
admitted. -/
def Issued (cacheSize : ℕ) (embeds : MmHash → ℕ) (items : Items) (c : EncoderChunk)
    (pass : EncoderPass) (m : EncoderManager) : Prop :=
  ∃ s pending, m = .shared s ∧ Calls cacheSize embeds s items pending ∧ Collected c pass pending

theorem Issued.of_calls {s : EncoderCacheManager} {pass : EncoderPass} {pending : List Admitted}
    (hs : Calls cacheSize embeds s items pending) (hpass : Collected c pass pending) :
    Issued cacheSize embeds items c pass (.shared s) :=
  ⟨s, pending, rfl, hs, hpass⟩

/-- Only the collected items of a pass matter. -/
theorem Collected.congr {pass pass' : EncoderPass} {pending : List Admitted}
    (h : Collected c pass pending)
    (hinputs : pass'.encoderInputsToSchedule = pass.encoderInputsToSchedule)
    (hexternal : pass'.externalLoadEncoderInput = pass.externalLoadEncoderInput)
    (hhashes : pass'.mmHashesToSchedule = pass.mmHashesToSchedule)
    (hembeds : pass'.numEmbedsToSchedule = pass.numEmbedsToSchedule) :
    Collected c pass' pending where
  request := h.request
  hashes := by rw [hhashes, h.hashes]
  embeds := by rw [hembeds, h.embeds]
  ids := by rw [hinputs, hexternal]; exact h.ids

/-- An item joins the pass, computed or loaded. -/
theorem Collected.snoc {pass pass' : EncoderPass} {pending : List Admitted}
    (h : Collected c pass pending) {a : Admitted} (ha : a.request = c.request)
    (hhashes : pass'.mmHashesToSchedule = pass.mmHashesToSchedule ++ [a.input.identifier])
    (hembeds : pass'.numEmbedsToSchedule = pass.numEmbedsToSchedule + a.input.getNumEmbeds)
    (hids : (pass'.encoderInputsToSchedule ++ pass'.externalLoadEncoderInput).Perm
      (pass.encoderInputsToSchedule ++ pass.externalLoadEncoderInput ++ [a.inputId])) :
    Collected c pass' (pending ++ [a]) where
  request := by
    intro b hb
    rcases mem_append.mp hb with hb | hb
    · exact h.request b hb
    · rwa [mem_singleton.mp hb]
  hashes := by rw [map_append, h.hashes, hhashes]; rfl
  embeds := by
    have hold := h.embeds
    simp only [embedsOf, map_append, sum_append, map_cons, map_nil, sum_singleton] at hold ⊢
    omega
  ids := by
    rw [map_append]
    exact (h.ids.append_right _).trans hids.symm

theorem admitInput_issued {s : EncoderCacheManager} {pass : EncoderPass}
    {pending : List Admitted} {i : ℕ} {f : EncoderInput}
    (hs : Calls cacheSize embeds s items pending) (hpass : Collected c pass pending)
    (hreq : Known embeds items c.request) (hf : c.request.mmFeatures[i]? = some f)
    (hfresh : f.identifier ∉ s.cached.keys) (hnew : f.identifier ∉ pass.mmHashesToSchedule) :
    Ensures (admitInput cfg c i f pass) (.shared s)
      (fun step t => Issued cacheSize embeds items c step.pass t)
      (fun e _ => e = .indexError "list index out of range") := by
  have hi : i < c.request.mmFeatures.length := (List.getElem?_eq_some_iff.mp hf).1
  unfold admitInput
  rw [ensures_ite]
  constructor
  · intro _
    exact .of_calls hs (hpass.congr rfl rfl rfl rfl)
  · intro _
    rw [ensures_bind, EncoderManager.canAllocate, ensures_dispatch_shared]
    have hreturns := canAllocate_balanced hs.balanced hf pass.encoderComputeBudget
      pass.numEmbedsToSchedule
    obtain ⟨fits, t, hrun, -⟩ := hreturns.exists_ok
    apply ensures_of_run_ok hrun
    rw [← hpass.embeds] at hrun
    cases fits with
    | false =>
      rw [if_pos rfl]
      exact .of_calls (.passedOver hs hi hrun) (hpass.congr rfl rfl rfl rfl)
    | true =>
      rw [if_neg (by simp), ensures_bind, ensures_expect]
      refine ⟨?_, fun _ => rfl⟩
      rintro ⟨embedsStart, embedsEnd⟩ -
      rw [ensures_ite]
      constructor
      · intro _
        exact .of_calls (.passedOver hs hi hrun) hpass
      · intro _
        have hadmitted : Calls cacheSize embeds t items (pending ++ [⟨c.request, i, f, hf⟩]) := by
          apply Calls.admitted hs hreq hfresh ?_ hrun
          intro b hb heq
          apply hnew
          rw [← hpass.hashes, ← heq]
          exact mem_map_of_mem hb
        rw [ensures_ite]
        constructor
        · intro _
          apply Issued.of_calls hadmitted
          apply hpass.snoc rfl rfl rfl
          simp [EncoderStep.pass]
        · intro _
          apply Issued.of_calls hadmitted
          apply hpass.snoc rfl rfl rfl
          simp only [EncoderStep.pass, append_assoc]
          exact perm_append_comm.append_left _

/-- The loop over the items issues only calls that the books allow for. -/
theorem scheduleInput_issued {m : EncoderManager} {pass : EncoderPass} {i : ℕ}
    (hshared : cfg.isEncoderDecoder = false) (hreq : Known embeds items c.request)
    (hm : Issued cacheSize embeds items c pass m) :
    Ensures (scheduleInput cfg c i pass) m
      (fun step t => Issued cacheSize embeds items c step.pass t)
      (fun e _ => e = .indexError "list index out of range") := by
  obtain ⟨s, pending, rfl, hs, hpass⟩ := hm
  unfold scheduleInput EncoderRequest.feature
  rw [ensures_bind, ensures_expect]
  refine ⟨?_, fun _ => rfl⟩
  intro f hf
  rw [hshared, if_neg (by simp), ensures_ite]
  constructor
  · intro _
    exact .of_calls hs hpass
  · intro hnew
    rw [ensures_bind, EncoderManager.checkAndUpdateCache, ensures_dispatch_shared]
    obtain ⟨cached, t, hrun, -, hmiss⟩ :=
      (checkAndUpdateCache_balanced hs.balanced hreq hf).exists_ok
    have hi : i < c.request.mmFeatures.length := (List.getElem?_eq_some_iff.mp hf).1
    apply ensures_of_run_ok hrun
    cases cached with
    | true => exact .of_calls (.checked hs hreq hi hrun) hpass
    | false =>
      obtain ⟨rfl, hfresh⟩ := hmiss rfl
      exact admitInput_issued hs hpass hreq hf hfresh hnew

/-- A pass over the items of a chunk is a sequence of calls; its items are then
admitted. It stops only on a mask that is shorter than its item. -/
theorem tryScheduleEncoderInputs_issued {s : EncoderCacheManager} (encoderComputeBudget : ℤ)
    (hshared : cfg.isEncoderDecoder = false) (hreq : Known embeds items c.request)
    (hs : Calls cacheSize embeds s items []) :
    Ensures (tryScheduleEncoderInputs cfg c encoderComputeBudget) (.shared s)
      (fun pass t => Issued cacheSize embeds items c pass t)
      (fun e _ => e = .indexError "list index out of range") := by
  have hstart : Issued cacheSize embeds items c (.start c encoderComputeBudget) (.shared s) :=
    .of_calls hs ⟨fun _ h => (nomatch h), rfl, rfl, .nil⟩
  have hloop : ∀ (inputs : List ℕ) (pass : EncoderPass) (m : EncoderManager),
      Issued cacheSize embeds items c pass m →
      Ensures (scheduleInputs cfg c inputs pass) m
        (fun pass t => Issued cacheSize embeds items c pass t)
        (fun e _ => e = .indexError "list index out of range") := by
    intro inputs
    induction inputs with
    | nil => exact fun _ _ hm => hm
    | cons i inputs ih =>
      intro pass m hm
      rw [scheduleInputs, ensures_bind]
      apply (scheduleInput_issued hshared hreq hm).mono
      · intro step t ht
        cases step with
        | next pass => exact ih pass t ht
        | done pass => exact ht
      · exact fun _ _ h => h
  unfold tryScheduleEncoderInputs
  rw [ensures_ite]
  exact ⟨fun _ => hstart, fun _ => hloop _ _ _ hstart⟩
end

end Vllm.EncoderAccounting
