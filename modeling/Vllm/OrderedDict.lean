import Mathlib.Algebra.Order.BigOperators.Group.List
import Mathlib.Algebra.Order.Ring.Int
import Mathlib.Data.List.Nodup

/-!
Dictionaries that remember the order of insertion, as the code's dictionaries
do: a new key goes to the end, a key that is set again keeps its place. Every
key occurs once, which the structure carries. Facts about a dictionary are
stated through its entries, and sums run over the entries.
-/
namespace Vllm

open List

structure OrderedDict (K V : Type) where
  entries : List (K × V)
  nodup : (entries.map Prod.fst).Nodup

namespace OrderedDict

variable {K V : Type}

def empty : OrderedDict K V := ⟨[], List.nodup_nil⟩

def keys (d : OrderedDict K V) : List K := d.entries.map Prod.fst

theorem entries_injective {d d' : OrderedDict K V} (h : d.entries = d'.entries) : d = d' := by
  cases d
  cases d'
  cases h
  rfl

variable {d : OrderedDict K V} {k : K}

theorem mem_keys_iff : k ∈ d.keys ↔ ∃ v, (k, v) ∈ d.entries := by
  simp [keys]

theorem keys_of_mem {v : V} (h : (k, v) ∈ d.entries) : k ∈ d.keys :=
  mem_keys_iff.mpr ⟨v, h⟩

/-- An entry stands at one place, and no other entry has its key. -/
theorem split_of_mem {v : V} (h : (k, v) ∈ d.entries) :
    ∃ before after, d.entries = before ++ (k, v) :: after ∧ ∀ e ∈ before ++ after, e.1 ≠ k := by
  obtain ⟨before, after, hsplit⟩ := append_of_mem h
  have hnodup := d.nodup
  rw [hsplit, map_append, map_cons, nodup_middle, nodup_cons] at hnodup
  refine ⟨before, after, hsplit, ?_⟩
  intro e he hek
  apply hnodup.1
  rw [← map_append]
  exact mem_map.mpr ⟨e, he, hek⟩

theorem value_unique {v w : V} (hv : (k, v) ∈ d.entries) (hw : (k, w) ∈ d.entries) : v = w := by
  obtain ⟨before, after, hsplit, hkeys⟩ := split_of_mem hv
  rw [hsplit, mem_append, mem_cons] at hw
  rcases hw with hw | hw | hw
  · exact absurd rfl (hkeys (k, w) (mem_append_left _ hw))
  · exact (Prod.ext_iff.mp hw).2.symm
  · exact absurd rfl (hkeys (k, w) (mem_append_right _ hw))

def sum (d : OrderedDict K V) (w : K → V → ℤ) : ℤ := (d.entries.map fun e => w e.1 e.2).sum

@[simp]
theorem sum_empty (w : K → V → ℤ) : (empty : OrderedDict K V).sum w = 0 := rfl

theorem sum_nonneg {w : K → V → ℤ} (h : ∀ k v, (k, v) ∈ d.entries → 0 ≤ w k v) : 0 ≤ d.sum w := by
  apply List.sum_nonneg
  intro x hx
  obtain ⟨e, he, rfl⟩ := List.mem_map.mp hx
  exact h e.1 e.2 he

variable [DecidableEq K]

def get? (d : OrderedDict K V) (k : K) : Option V := d.entries.lookup k

def set (d : OrderedDict K V) (k : K) (v : V) : OrderedDict K V :=
  if h : k ∈ d.keys then
    { entries := d.entries.map fun e => if e.1 = k then (k, v) else e
      nodup := by
        have hkeys : (d.entries.map fun e => if e.1 = k then (k, v) else e).map Prod.fst =
            d.entries.map Prod.fst := by
          rw [List.map_map]
          apply List.map_congr_left
          intro e _
          by_cases he : e.1 = k <;> simp [he]
        rw [hkeys]
        exact d.nodup }
  else
    { entries := d.entries ++ [(k, v)]
      nodup := by
        rw [List.map_append, List.nodup_append']
        refine ⟨d.nodup, List.nodup_singleton k, ?_⟩
        simpa [keys] using h }

def erase (d : OrderedDict K V) (k : K) : OrderedDict K V where
  entries := d.entries.filter fun e => e.1 ≠ k
  nodup := d.nodup.sublist (List.filter_sublist.map _)

def eraseAll (d : OrderedDict K V) (ks : List K) : OrderedDict K V :=
  ks.foldr (fun k d => d.erase k) d

/-- The value under a key changed in place, as through a reference to it. -/
def adjust (d : OrderedDict K V) (k : K) (f : V → V) : OrderedDict K V where
  entries := d.entries.map fun e => if e.1 = k then (e.1, f e.2) else e
  nodup := by
    have hkeys : (d.entries.map fun e => if e.1 = k then (e.1, f e.2) else e).map Prod.fst =
        d.entries.map Prod.fst := by
      rw [List.map_map]
      apply List.map_congr_left
      intro e _
      by_cases he : e.1 = k <;> simp [he]
    rw [hkeys]
    exact d.nodup

def moveToEnd (d : OrderedDict K V) (k : K) : OrderedDict K V :=
  match d.get? k with
  | some v => (d.erase k).set k v
  | none => d

/-- `d.popitem(last=False)` repeated `n` times, the items apart. -/
def dropFirst (d : OrderedDict K V) (n : ℕ) : OrderedDict K V where
  entries := d.entries.drop n
  nodup := d.nodup.sublist ((List.drop_sublist n d.entries).map _)

section
variable {d : OrderedDict K V} {k l : K} {v w : V} {e : K × V} (ks : List K)

/-- Setting a key replaces its value and nothing else. -/
theorem mem_entries_set : e ∈ (d.set k v).entries ↔ e = (k, v) ∨ e ∈ d.entries ∧ e.1 ≠ k := by
  unfold set
  split
  next hk =>
    obtain ⟨w, hw⟩ := mem_keys_iff.mp hk
    simp only [mem_map]
    constructor
    · rintro ⟨f, hf, rfl⟩
      by_cases hfk : f.1 = k
      · left
        simp [hfk]
      · right
        simpa [hfk] using hf
    · rintro (rfl | ⟨he, hek⟩)
      · exact ⟨(k, w), hw, by simp⟩
      · exact ⟨e, he, by simp [hek]⟩
  next hk =>
    have hne : e ∈ d.entries → e.1 ≠ k := fun he hek => hk (hek ▸ keys_of_mem he)
    simp only [mem_append, mem_singleton]
    tauto

@[simp]
theorem mem_entries_erase : e ∈ (d.erase k).entries ↔ e ∈ d.entries ∧ e.1 ≠ k := by
  simp [erase]

@[simp]
theorem mem_keys_set : l ∈ (d.set k v).keys ↔ l = k ∨ l ∈ d.keys := by
  simp only [mem_keys_iff, mem_entries_set, Prod.mk.injEq]
  by_cases hl : l = k
  · simp [hl]
  · simp [hl]

@[simp]
theorem mem_keys_erase : l ∈ (d.erase k).keys ↔ l ∈ d.keys ∧ l ≠ k := by
  simp only [mem_keys_iff, mem_entries_erase, exists_and_right]

theorem keys_set_of_notMem (h : k ∉ d.keys) : (d.set k v).keys = d.keys ++ [k] := by
  unfold set
  rw [dif_neg h]
  simp [keys]

theorem keys_erase_perm (h : k ∈ d.keys) : (k :: (d.erase k).keys).Perm d.keys := by
  apply (perm_ext_iff_of_nodup _ d.nodup).mpr
  · intro l
    rw [mem_cons, mem_keys_erase]
    by_cases hl : l = k
    · exact ⟨fun _ => hl ▸ h, fun _ => .inl hl⟩
    · exact ⟨fun hmem => (hmem.resolve_left hl).1, fun hmem => .inr ⟨hmem, hl⟩⟩
  · rw [nodup_cons, mem_keys_erase]
    exact ⟨fun hmem => hmem.2 rfl, (d.erase k).nodup⟩

theorem get?_eq_some_iff : d.get? k = some v ↔ (k, v) ∈ d.entries := by
  unfold get?
  rw [lookup_eq_some_iff]
  constructor
  · rintro ⟨before, after, hsplit, -⟩
    rw [hsplit]
    simp
  · intro h
    obtain ⟨before, after, hsplit, hkeys⟩ := split_of_mem h
    refine ⟨before, after, hsplit, ?_⟩
    intro e he
    have hne := hkeys e (mem_append_left _ he)
    simpa [bne_iff_ne] using Ne.symm hne

theorem get?_eq_none_iff : d.get? k = none ↔ k ∉ d.keys := by
  rw [← not_iff_not, not_not, mem_keys_iff, ← ne_eq, Option.ne_none_iff_exists']
  simp only [get?_eq_some_iff]

theorem get?_congr {d' : OrderedDict K V} (h : ∀ w, (l, w) ∈ d.entries ↔ (l, w) ∈ d'.entries) :
    d.get? l = d'.get? l := by
  apply Option.ext
  intro w
  rw [get?_eq_some_iff, get?_eq_some_iff]
  exact h w

@[simp]
theorem get?_set_self : (d.set k v).get? k = some v :=
  get?_eq_some_iff.mpr (mem_entries_set.mpr (.inl rfl))

theorem get?_set_of_ne (h : l ≠ k) : (d.set k v).get? l = d.get? l := by
  apply get?_congr
  intro w
  simp [mem_entries_set, h]

/-- Lookup after a set. -/
theorem get?_set : (d.set k v).get? l = if l = k then some v else d.get? l := by
  by_cases h : l = k
  · subst h
    simp
  · rw [get?_set_of_ne h, if_neg h]

@[simp]
theorem get?_erase_self : (d.erase k).get? k = none := by
  simp [get?_eq_none_iff]

theorem get?_erase_of_ne (h : l ≠ k) : (d.erase k).get? l = d.get? l := by
  apply get?_congr
  intro w
  simp [h]

/-- Lookup after a deletion. -/
theorem get?_erase : (d.erase k).get? l = if l = k then none else d.get? l := by
  by_cases h : l = k
  · subst h
    simp
  · rw [get?_erase_of_ne h, if_neg h]

theorem get?_eraseAll : (d.eraseAll ks).get? l = if l ∈ ks then none else d.get? l := by
  induction ks with
  | nil => simp [eraseAll]
  | cons k ks ih =>
    change ((d.eraseAll ks).erase k).get? l = _
    rw [get?_erase, ih]
    by_cases hl : l = k <;> simp [hl]

@[simp]
theorem get?_empty : (empty : OrderedDict K V).get? k = none := rfl

theorem set_set : (d.set k v).set k w = d.set k w := by
  have hmem : k ∈ (d.set k v).keys := mem_keys_set.mpr (.inl rfl)
  apply entries_injective
  by_cases hk : k ∈ d.keys
  · unfold set at hmem ⊢
    simp only [hk, dite_true] at hmem ⊢
    simp only [hmem, dite_true, map_map]
    apply map_congr_left
    intro e _
    by_cases he : e.1 = k <;> simp [he]
  · have hold : d.entries.map (fun e => if e.1 = k then (k, w) else e) = d.entries.map id := by
      apply map_congr_left
      intro e he
      have hne : e.1 ≠ k := fun hek => hk (hek ▸ keys_of_mem he)
      exact if_neg hne
    unfold set at hmem ⊢
    simp only [hk, dite_false] at hmem ⊢
    simp only [hmem, dite_true, map_append, hold, map_id]
    simp

theorem erase_of_notMem (h : k ∉ d.keys) : d.erase k = d := by
  apply entries_injective
  apply filter_eq_self.mpr
  intro e he
  have hne : e.1 ≠ k := fun hek => h (hek ▸ keys_of_mem he)
  simp [hne]

theorem entries_set_of_notMem (h : k ∉ d.keys) : (d.set k v).entries = d.entries ++ [(k, v)] := by
  unfold set
  rw [dif_neg h]

/-- Taking an entry out and putting it back at the end only reorders. -/
theorem entries_erase_perm (h : (k, v) ∈ d.entries) :
    ((k, v) :: (d.erase k).entries).Perm d.entries := by
  obtain ⟨before, after, hsplit, hkeys⟩ := split_of_mem h
  have hrest : (d.erase k).entries = before ++ after := by
    unfold erase
    dsimp only
    rw [hsplit, filter_append, filter_cons_of_neg (by simp), ← filter_append]
    apply filter_eq_self.mpr
    simpa using hkeys
  rw [hrest, hsplit]
  exact perm_middle.symm

theorem entries_set_erase_perm (h : (k, v) ∈ d.entries) :
    ((d.erase k).set k v).entries.Perm d.entries := by
  have hnot : k ∉ (d.erase k).keys := by simp
  rw [entries_set_of_notMem hnot]
  exact (perm_append_singleton _ _).trans (entries_erase_perm h)

theorem mem_entries_eraseAll : e ∈ (d.eraseAll ks).entries ↔ e ∈ d.entries ∧ e.1 ∉ ks := by
  induction ks with
  | nil => simp [eraseAll]
  | cons k ks ih =>
    change e ∈ ((d.eraseAll ks).erase k).entries ↔ _
    rw [mem_entries_erase, ih, mem_cons]
    tauto

/-- Entries with distinct keys, taken out together. -/
theorem entries_eraseAll_perm (es : List (K × V)) (hmem : ∀ e ∈ es, e ∈ d.entries)
    (hnodup : (es.map Prod.fst).Nodup) :
    (es ++ (d.eraseAll (es.map Prod.fst)).entries).Perm d.entries := by
  induction es with
  | nil => exact List.Perm.refl _
  | cons e es ih =>
    obtain ⟨hfresh, hrest⟩ := nodup_cons.mp hnodup
    have hinside : e ∈ (d.eraseAll (es.map Prod.fst)).entries :=
      (mem_entries_eraseAll _).mpr ⟨hmem e mem_cons_self, hfresh⟩
    have hout := entries_erase_perm hinside
    have hin := ih (fun f hf => hmem f (mem_cons_of_mem e hf)) hrest
    refine List.Perm.trans ?_ hin
    refine List.Perm.trans ?_ (hout.append_left es)
    exact perm_middle.symm

/-- Moving to the end changes the order only. -/
theorem entries_moveToEnd_perm : (d.moveToEnd k).entries.Perm d.entries := by
  unfold moveToEnd
  split
  next v hv => exact entries_set_erase_perm (get?_eq_some_iff.mp hv)
  next => exact List.Perm.refl _

@[simp]
theorem mem_keys_moveToEnd : l ∈ (d.moveToEnd k).keys ↔ l ∈ d.keys :=
  (entries_moveToEnd_perm.map Prod.fst).mem_iff

@[simp]
theorem keys_adjust (f : V → V) : (d.adjust k f).keys = d.keys := by
  unfold keys adjust
  dsimp only
  rw [map_map]
  apply map_congr_left
  intro e _
  by_cases he : e.1 = k <;> simp [he]

theorem get?_adjust_self {f : V → V} (h : d.get? k = some v) :
    (d.adjust k f).get? k = some (f v) := by
  rw [get?_eq_some_iff] at h ⊢
  exact mem_map.mpr ⟨(k, v), h, if_pos rfl⟩

omit [DecidableEq K] in
theorem mem_keys_of_mem_dropFirst {n : ℕ} (h : l ∈ (d.dropFirst n).keys) : l ∈ d.keys :=
  ((drop_sublist n d.entries).map Prod.fst).subset h
end

variable {d : OrderedDict K V} {k : K} {v : V} (w : K → V → ℤ)

/-- A new key adds its weight. -/
theorem sum_set_of_notMem (h : k ∉ d.keys) : (d.set k v).sum w = d.sum w + w k v := by
  simp [sum, set, h]

/-- A deleted key takes its weight along. -/
theorem sum_erase_of_mem (h : (k, v) ∈ d.entries) : (d.erase k).sum w = d.sum w - w k v := by
  have hsum := ((entries_erase_perm h).map fun e => w e.1 e.2).sum_eq
  rw [map_cons, sum_cons] at hsum
  unfold sum
  dsimp only at hsum
  omega

theorem sum_set_of_mem {u : V} (h : (k, u) ∈ d.entries) :
    (d.set k v).sum w = d.sum w - w k u + w k v := by
  obtain ⟨before, after, hsplit, hkeys⟩ := split_of_mem h
  have hsame : ∀ part ⊆ before ++ after,
      (part.map fun e => if e.1 = k then (k, v) else e) = part := by
    intro part hpart
    have hid : part.map (fun e => if e.1 = k then (k, v) else e) = part.map id := by
      apply map_congr_left
      intro e he
      exact if_neg (hkeys e (hpart he))
    rw [hid, map_id]
  have hset : (d.set k v).entries = before ++ (k, v) :: after := by
    unfold set
    rw [dif_pos (keys_of_mem h)]
    dsimp only
    rw [hsplit, map_append, map_cons, if_pos rfl,
      hsame before (subset_append_left _ _), hsame after (subset_append_right _ _)]
  simp only [sum, hset, hsplit, map_append, map_cons, sum_append, sum_cons]
  omega

theorem sum_eq_of_get?_eq {d' : OrderedDict K V} (h : ∀ k, d.get? k = d'.get? k) :
    d.sum w = d'.sum w := by
  have hperm : d.entries.Perm d'.entries := by
    apply (perm_ext_iff_of_nodup d.nodup.of_map d'.nodup.of_map).mpr
    rintro ⟨k, v⟩
    rw [← get?_eq_some_iff, ← get?_eq_some_iff, h]
  exact (hperm.map _).sum_eq

/-- So do several distinct keys. -/
theorem sum_eraseAll (ks : List K) (hnodup : ks.Nodup) :
    (d.eraseAll ks).sum w = d.sum w - (ks.map fun k => ((d.get? k).map (w k)).getD 0).sum := by
  induction ks with
  | nil => simp [eraseAll]
  | cons k ks ih =>
    obtain ⟨hk, hks⟩ := nodup_cons.mp hnodup
    have hget : (d.eraseAll ks).get? k = d.get? k := by rw [get?_eraseAll, if_neg hk]
    change ((d.eraseAll ks).erase k).sum w = _
    rw [map_cons, sum_cons]
    cases hv : d.get? k with
    | none =>
      have hnot : k ∉ (d.eraseAll ks).keys := get?_eq_none_iff.mp (hget.trans hv)
      rw [erase_of_notMem hnot, ih hks]
      simp
    | some v =>
      rw [sum_erase_of_mem w (get?_eq_some_iff.mp (hget.trans hv)), ih hks]
      simp only [Option.map_some, Option.getD_some]
      omega

end OrderedDict

end Vllm
