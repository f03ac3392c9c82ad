import Mathlib.Data.List.Infix
import Mathlib.Tactic.Common

/-!
The n-gram proposer. The reversed tokens are scanned for the longest beginning
that occurs again, with a table of borders that is cut off at the longest n-gram.
Of all places of that length the earliest in the tokens is taken.
-/
namespace Vllm.NgramProposer

open List

variable {τ : Type}

structure Scan where
  i : ℕ
  prevLps : ℕ
  lps : List ℕ
  longestNgram : ℕ
  position : ℕ

def storeLps (lps : List ℕ) (maxNgram i prevLps : ℕ) : Option (List ℕ) :=
  -- The border is stored for the first `max_ngram` tokens.
  if i < maxNgram then lps[i]?.map fun _ => lps.set i prevLps else some lps

def capLps (lps : List ℕ) (maxNgram prevLps : ℕ) : Option ℕ :=
  -- A border that reached `max_ngram` falls back to the next one.
  if prevLps = maxNgram then lps[maxNgram - 1]? else some prevLps

def keepLongest (s : Scan) (prevLps : ℕ) : ℕ × ℕ :=
  -- The longest n-gram and its position; of two as long as each other the later one.
  if prevLps ≥ s.longestNgram then (prevLps, s.i) else (s.longestNgram, s.position)

def scanStep [DecidableEq τ] (tokens : List τ) (maxNgram : ℕ) (s : Scan) : Option Scan := do
  let expected ← tokens[s.prevLps]?
  let token ← tokens[s.i]?
  if expected = token then
    let prevLps := s.prevLps + 1
    let best := keepLongest s prevLps
    let lps ← storeLps s.lps maxNgram s.i prevLps
    let prevLps ← capLps lps maxNgram prevLps
    some ⟨s.i + 1, prevLps, lps, best.1, best.2⟩
  else if s.prevLps ≠ 0 then do
    let prevLps ← s.lps[s.prevLps - 1]?
    some { s with prevLps }
  else some { s with i := s.i + 1 }

def scan [DecidableEq τ] (tokens : List τ) (maxNgram : ℕ) : ℕ → Scan → Option Scan
  | 0, s => if s.i < tokens.length then none else some s
  | fuel + 1, s =>
    if s.i < tokens.length then (scanStep tokens maxNgram s).bind (scan tokens maxNgram fuel)
    else some s

def findLongestMatchedNgramAndProposeTokens [DecidableEq τ] (originTokens : List τ)
    (minNgram maxNgram maxModelLen k : ℕ) : Option (List τ) :=
  let totalToken := originTokens.length
  if totalToken < minNgram then some []
  else
    let k := min k (maxModelLen - totalToken)
    if k ≤ 0 then some []
    else do
      let s ← scan originTokens.reverse maxNgram (2 * totalToken)
        ⟨1, 0, List.replicate maxNgram 0, 0, 0⟩
      if s.longestNgram < minNgram then some []
      else
        let startPosition := totalToken - 1 - s.position + s.longestNgram
        let k := min k (totalToken - startPosition)
        some ((originTokens.drop startPosition).take k)

/-! ### Borders -/

section
variable {tokens : List τ} {u v i : ℕ}

variable (tokens) in
/-- The first `v` tokens are also the last ones before `i`, at an earlier place. -/
def Border (v i : ℕ) : Prop := v < i ∧ tokens.take v <:+ tokens.take i

theorem border_zero (h : 0 < i) : Border tokens 0 i := ⟨h, by simp⟩

/-- A border of a border is a border. -/
theorem Border.trans (h : Border tokens u v) (h' : Border tokens v i) : Border tokens u i :=
  ⟨h.1.trans h'.1, h.2.trans h'.2⟩

/-- Of two borders the shorter one is a border of the longer. -/
theorem Border.of_lt (h : Border tokens u i) (h' : Border tokens v i) (hlt : u < v) :
    Border tokens u v :=
  ⟨hlt, suffix_of_suffix_length_le h.2 h'.2 (by simp; omega)⟩

theorem concat_suffix_concat_iff {l l' : List τ} {a a' : τ} :
    l ++ [a] <:+ l' ++ [a'] ↔ l <:+ l' ∧ a = a' := by
  simp [suffix_concat_iff, and_comm]

/-- A border grows by a token and shrinks by its last one. -/
theorem border_succ (hi : i < tokens.length) :
    Border tokens (v + 1) (i + 1) ↔ Border tokens v i ∧ tokens[v]? = tokens[i]? := by
  by_cases hv : v < i
  · rw [Border, take_add_one, take_add_one, getElem?_eq_getElem hi,
      getElem?_eq_getElem (hv.trans hi), Option.toList_some, Option.toList_some,
      concat_suffix_concat_iff, Nat.add_lt_add_iff_right, Option.some_inj, ← and_assoc]
    rfl
  · exact iff_of_false (fun h => hv (Nat.lt_of_succ_lt_succ h.1)) fun h => hv h.1.1
end

/-! ### The scan -/

section
variable {tokens : List τ} {maxNgram : ℕ} {s : Scan} {b i v : ℕ}

/-- What the scan knows of the tokens before `i`: the borders of the first ones, and
the longest border anywhere that is not over the cap, at its last place. -/
structure Recorded (tokens : List τ) (maxNgram i : ℕ) (lps : List ℕ) (longest position : ℕ) :
    Prop where
  length : lps.length = maxNgram
  table : ∀ j < i, ∀ v ∈ lps[j]?, Border tokens v (j + 1) ∧ ∀ u, Border tokens u (j + 1) → u ≤ v
  blank : ∀ j, i ≤ j → ∀ v ∈ lps[j]?, v = 0
  longest_le : longest ≤ maxNgram
  greatest : ∀ v j, Border tokens v j → j ≤ i → v ≤ maxNgram → v ≤ longest
  found : 0 < longest → position < i ∧ Border tokens longest (position + 1) ∧
    ∀ j, position + 1 < j → j ≤ i → ¬Border tokens longest j

/-- The greatest border of `i` under the cap that was not tried yet is `prevLps`. -/
structure Sound (tokens : List τ) (maxNgram : ℕ) (s : Scan) : Prop
    extends Recorded tokens maxNgram s.i s.lps s.longestNgram s.position where
  i_le : s.i ≤ tokens.length
  prev_lt : s.prevLps < maxNgram
  prev : Border tokens s.prevLps s.i
  tried : ∀ v, s.prevLps < v → v < maxNgram → Border tokens v s.i → tokens[v]? ≠ tokens[s.i]?

variable {lps : List ℕ} {longest position : ℕ}

/-- The borders of one more token, of which `b` is the greatest. -/
theorem Recorded.advance (h : Recorded tokens maxNgram i lps longest position)
    (hb : Border tokens b (i + 1)) (hcap : b ≤ maxNgram)
    (hmax : ∀ v ≤ maxNgram, Border tokens v (i + 1) → v ≤ b) {lps' : List ℕ}
    {longest' position' : ℕ} (hlength : lps'.length = lps.length)
    (hlps : ∀ j, lps'[j]? = if j = i then lps[j]?.map fun _ => b else lps[j]?)
    (hlongest : longest' = max longest b) (hnew : 0 < b → longest ≤ b → position' = i)
    (hold : b < longest → position' = position) :
    Recorded tokens maxNgram (i + 1) lps' longest' position' where
  length := hlength.trans h.length
  table j hj v hv := by
    rw [hlps] at hv
    split_ifs at hv with hji
    · obtain ⟨w, hw, rfl⟩ := Option.map_eq_some_iff.mp hv
      subst hji
      have hlt := (List.getElem?_eq_some_iff.mp hw).1
      exact ⟨hb, fun u hu => hmax u (by have := hu.1; have := h.length; omega) hu⟩
    · exact h.table j (by omega) v hv
  blank j hj v hv := by
    rw [hlps, if_neg (by omega)] at hv
    exact h.blank j (by omega) v hv
  longest_le := hlongest ▸ max_le h.longest_le hcap
  greatest v j hv hj hle := by
    rcases Nat.le_succ_iff.mp hj with hj | rfl
    · exact hlongest ▸ (h.greatest v j hv hj hle).trans (le_max_left _ _)
    · exact hlongest ▸ (hmax v hle hv).trans (le_max_right _ _)
  found hpos := by
    rcases Nat.lt_or_ge b longest with hlt | hge
    · rw [hlongest, max_eq_left hlt.le, hold hlt] at *
      obtain ⟨hless, hfound, hlast⟩ := h.found hpos
      refine ⟨by omega, hfound, fun j hj hle hborder => ?_⟩
      rcases Nat.le_succ_iff.mp hle with hle | rfl
      · exact hlast j hj hle hborder
      · have := hmax _ h.longest_le hborder
        omega
    · rw [hlongest, max_eq_right hge] at *
      rw [hnew hpos hge]
      exact ⟨Nat.lt_succ_self _, hb, fun j hj hle => by omega⟩

/-- The borders of one more token come from those that were not tried yet. -/
theorem Sound.le_succ (h : Sound tokens maxNgram s) (hi : s.i < tokens.length) (hv : v ≤ maxNgram)
    (hborder : Border tokens v (s.i + 1)) :
    v = 0 ∨ v ≤ s.prevLps ∨ v = s.prevLps + 1 ∧ tokens[s.prevLps]? = tokens[s.i]? := by
  rcases v with _ | u
  · exact .inl rfl
  obtain ⟨hu, hnext⟩ := (border_succ hi).mp hborder
  rcases Nat.lt_trichotomy u s.prevLps with hlt | rfl | hgt
  · exact .inr (.inl hlt)
  · exact .inr (.inr ⟨rfl, hnext⟩)
  · exact absurd hnext (h.tried u hgt hv hu)

/-- The next pass begins with the greatest border under the cap. -/
theorem Recorded.sound (h : Recorded tokens maxNgram i lps longest position)
    (hi : i ≤ tokens.length) (hb : Border tokens b i) (hlt : b < maxNgram)
    (hmax : ∀ v < maxNgram, Border tokens v i → v ≤ b) :
    Sound tokens maxNgram ⟨i, b, lps, longest, position⟩ where
  toRecorded := h
  i_le := hi
  prev_lt := hlt
  prev := hb
  tried v hv hlt hborder := absurd (hmax v hlt hborder) hv.not_ge

theorem keepLongest_spec (s : Scan) (b : ℕ) : (keepLongest s b).1 = max s.longestNgram b ∧
    (s.longestNgram ≤ b → (keepLongest s b).2 = s.i) ∧
      (b < s.longestNgram → (keepLongest s b).2 = s.position) := by
  unfold keepLongest
  split_ifs with hge
  · exact ⟨(max_eq_right hge).symm, fun _ => rfl, fun hlt => absurd hge hlt.not_ge⟩
  · exact ⟨(max_eq_left (not_le.mp hge).le).symm, fun h => absurd h hge, fun _ => rfl⟩

theorem storeLps_spec (i b : ℕ) (h : lps.length = maxNgram) :
    ∃ lps', storeLps lps maxNgram i b = some lps' ∧ lps'.length = lps.length ∧
      ∀ j, lps'[j]? = if j = i then lps[j]?.map fun _ => b else lps[j]? := by
  unfold storeLps
  split_ifs with hi
  · refine ⟨_, by rw [getElem?_eq_getElem (h ▸ hi), Option.map_some], length_set, fun j => ?_⟩
    rw [getElem?_set]
    rcases eq_or_ne j i with rfl | hne
    · simp [h ▸ hi]
    · rw [if_neg hne.symm, if_neg hne]
  · refine ⟨lps, rfl, rfl, fun j => ?_⟩
    split_ifs with hj
    · simp [h, hj, not_lt.mp hi]
    · rfl

/-- The cap falls back to the greatest border below it. -/
theorem Recorded.capLps_spec (h : Recorded tokens maxNgram i lps longest position)
    (hb : Border tokens b i) (hpos : 0 < b) (hcap : b ≤ maxNgram)
    (hmax : ∀ v ≤ maxNgram, Border tokens v i → v ≤ b) :
    ∃ p ≤ b, capLps lps maxNgram b = some p ∧ Border tokens p i ∧ p < maxNgram ∧
      ∀ v < maxNgram, Border tokens v i → v ≤ p := by
  unfold capLps
  split_ifs with hfull
  · subst hfull
    have hlt := hb.1
    have hget := getElem?_eq_getElem (show b - 1 < lps.length by have := h.length; omega)
    obtain ⟨hp, hgreatest⟩ := h.table _ (by omega) _ hget
    rw [Nat.sub_add_cancel hpos] at hp hgreatest
    exact ⟨_, hp.1.le, hget, hp.trans hb, hp.1, fun v hv hborder =>
      hgreatest v (hborder.of_lt hb hv)⟩
  · exact ⟨b, le_rfl, rfl, hb, by omega, fun v hv => hmax v hv.le⟩

variable [DecidableEq τ]

/-- A pass reads inside the arrays, keeps the invariant and brings the scan nearer to its end. -/
theorem scanStep_sound (h : Sound tokens maxNgram s) (hi : s.i < tokens.length) :
    ∃ s', scanStep tokens maxNgram s = some s' ∧ Sound tokens maxNgram s' ∧
      2 * (tokens.length - s'.i) + s'.prevLps < 2 * (tokens.length - s.i) + s.prevLps := by
  have hprev := h.prev.1
  have hlt := h.prev_lt
  have hlps := h.length
  have hsome {j : ℕ} (hj : j < maxNgram) : ∃ v, s.lps[j]? = some v :=
    ⟨_, getElem?_eq_getElem (hlps ▸ hj)⟩
  unfold scanStep
  rw [getElem?_eq_getElem hi, getElem?_eq_getElem (hprev.trans hi)]
  by_cases heq : tokens[s.prevLps] = tokens[s.i]
  · have hb := (border_succ hi).mpr ⟨h.prev, by simpa [hi, hprev.trans hi] using heq⟩
    have hmax (v : ℕ) (hv : v ≤ maxNgram) (hborder : Border tokens v (s.i + 1)) :
        v ≤ s.prevLps + 1 := by
      have := h.le_succ hi hv hborder
      omega
    obtain ⟨lps, hstore, hlength, hget⟩ := storeLps_spec s.i (s.prevLps + 1) hlps
    obtain ⟨hlongest, hnew, hold⟩ := keepLongest_spec s (s.prevLps + 1)
    have hrec := h.toRecorded.advance hb hlt hmax hlength hget hlongest (fun _ => hnew) hold
    simp only [Option.bind_eq_bind, Option.bind_some, if_pos heq, hstore]
    obtain ⟨p, hple, hcap, hp, hplt, hpmax⟩ := hrec.capLps_spec hb (Nat.succ_pos _) hlt hmax
    rw [hcap, Option.bind_some]
    exact ⟨_, rfl, hrec.sound hi hp hplt hpmax, by dsimp only; omega⟩
  simp only [Option.bind_eq_bind, Option.bind_some, if_neg heq]
  have hne : tokens[s.prevLps]? ≠ tokens[s.i]? := by
    simpa [hi, hprev.trans hi] using heq
  by_cases hzero : s.prevLps = 0
  · -- no border is left
    rw [if_neg (not_not.mpr hzero)]
    have hmax (v : ℕ) (hv : v ≤ maxNgram) (hborder : Border tokens v (s.i + 1)) : v ≤ 0 := by
      rcases h.le_succ hi hv hborder with h | h | h
      · omega
      · omega
      · exact absurd h.2 hne
    have hborder : Border tokens 0 (s.i + 1) := border_zero (Nat.succ_pos _)
    have hrec := h.toRecorded.advance hborder (Nat.zero_le _) hmax rfl
      (fun j => by
        split_ifs with hj
        · cases hget : s.lps[j]? with
          | none => rfl
          | some w => simp [h.blank j hj.ge w hget]
        · rfl) (Nat.max_zero _).symm (fun h => absurd h (lt_irrefl 0)) fun _ => rfl
    refine ⟨_, rfl, ?_, by dsimp only; omega⟩
    rw [hzero]
    exact hrec.sound hi hborder (by omega) fun v hv => hmax v hv.le
  · -- the next border of the tokens before `i`
    rw [if_pos hzero]
    obtain ⟨p, hp⟩ := hsome (show s.prevLps - 1 < maxNgram by omega)
    obtain ⟨hborder, hgreatest⟩ := h.table _ (by omega) p hp
    rw [Nat.sub_add_cancel (Nat.pos_of_ne_zero hzero)] at hborder hgreatest
    have hless := hborder.1
    refine ⟨{ s with prevLps := p }, by rw [hp, Option.bind_some],
      ⟨h.toRecorded, h.i_le, by dsimp only; omega, hborder.trans h.prev, fun v hv hcap hv' => ?_⟩,
      by dsimp only; omega⟩
    rcases Nat.lt_trichotomy v s.prevLps with hlt | rfl | hgt
    · exact absurd (hgreatest v (hv'.of_lt h.prev hlt)) (not_le.mpr hv)
    · exact hne
    · exact h.tried v hgt hcap hv'

/-- The whole scan: every pass moves on or shortens the border. -/
theorem scan_sound (fuel : ℕ) (h : Sound tokens maxNgram s)
    (hfuel : 2 * (tokens.length - s.i) + s.prevLps ≤ fuel) :
    ∃ s', scan tokens maxNgram fuel s = some s' ∧ Sound tokens maxNgram s' ∧
      s'.i = tokens.length := by
  induction fuel generalizing s with
  | zero =>
    have hle := h.i_le
    exact ⟨s, by rw [scan, if_neg (by omega)], h, by omega⟩
  | succ fuel ih =>
    unfold scan
    split_ifs with hi
    · obtain ⟨s', hstep, hsound, hless⟩ := scanStep_sound h hi
      rw [hstep, Option.bind_some]
      exact ih hsound (by omega)
    · exact ⟨s, rfl, h, le_antisymm h.i_le (not_lt.mp hi)⟩

omit [DecidableEq τ] in
theorem sound_start (hn : 0 < tokens.length) (hmax : 0 < maxNgram) :
    Sound tokens maxNgram ⟨1, 0, List.replicate maxNgram 0, 0, 0⟩ := by
  have hone {u : ℕ} (hu : Border tokens u 1) : u ≤ 0 := Nat.le_of_lt_succ hu.1
  have hzero {j v : ℕ} (hv : v ∈ (List.replicate maxNgram 0)[j]?) : v = 0 :=
    eq_of_mem_replicate (mem_of_getElem? hv)
  refine Recorded.sound ⟨length_replicate, fun j hj v hv => ?_, fun j _ v => hzero, Nat.zero_le _,
    fun v j hv hj _ => ?_, fun h => absurd h (lt_irrefl 0)⟩ hn (border_zero Nat.one_pos) hmax
    fun v _ => hone
  · obtain rfl : j = 0 := by omega
    obtain rfl := hzero hv
    exact ⟨border_zero hj, fun u => hone⟩
  · have := hv.1
    omega
end

/-! ### The proposal -/

variable (t : List τ) (minNgram maxNgram L e : ℕ)

/-- The last `L` tokens also end at `e`, before the last position. -/
def Occurs : Prop := L ≤ e ∧ e < t.length ∧ t.drop (t.length - L) <+: t.drop (e - L)

def Matched : Prop := minNgram ≤ L ∧ L ≤ maxNgram ∧ ∃ e, Occurs t L e

/-- An earlier occurrence of the last tokens is a border of the reversed text. -/
theorem occurs_iff_border {L e : ℕ} : Occurs t L e ↔
    L ≤ e ∧ e < t.length ∧ Border t.reverse L (t.length + L - e) := by
  refine and_congr_right fun hle => and_congr_right fun hlt => ?_
  rw [Border, take_reverse, take_reverse, reverse_suffix,
    show t.length - (t.length + L - e) = e - L by omega]
  exact (and_iff_right (by omega)).symm

variable [DecidableEq τ]

/-- What the scan of all tokens finds. -/
theorem scan_finds {minNgram maxNgram : ℕ} (hmin : 1 ≤ minNgram) (hmax : minNgram ≤ maxNgram)
    (hn : minNgram ≤ t.length) :
    ∃ s, scan t.reverse maxNgram (2 * t.length) ⟨1, 0, List.replicate maxNgram 0, 0, 0⟩ = some s ∧
      s.longestNgram ≤ maxNgram ∧ (∀ L e, Occurs t L e → L ≤ maxNgram → L ≤ s.longestNgram) ∧
      (0 < s.longestNgram → Occurs t s.longestNgram (t.length - 1 - s.position + s.longestNgram) ∧
        ∀ e, Occurs t s.longestNgram e → t.length - 1 - s.position + s.longestNgram ≤ e) := by
  have hlength : t.reverse.length = t.length := length_reverse
  have hstart : Sound t.reverse maxNgram ⟨1, 0, List.replicate maxNgram 0, 0, 0⟩ :=
    sound_start (by omega) (by omega)
  obtain ⟨s, hscan, hsound, hend⟩ := scan_sound (2 * t.length) hstart (by dsimp only; omega)
  refine ⟨s, hscan, hsound.longest_le, fun L e hocc hle => ?_, fun hpos => ?_⟩
  · obtain ⟨_, _, hborder⟩ := (occurs_iff_border t).mp hocc
    exact hsound.greatest L _ hborder (by omega) hle
  · obtain ⟨hlt, hborder, hlast⟩ := hsound.found hpos
    have hless := hborder.1
    refine ⟨(occurs_iff_border t).mpr ⟨by omega, by omega, ?_⟩, fun e hocc => ?_⟩
    · rwa [show t.length + s.longestNgram - (t.length - 1 - s.position + s.longestNgram) =
        s.position + 1 by omega]
    · obtain ⟨_, _, hborder⟩ := (occurs_iff_border t).mp hocc
      by_contra hearly
      exact hlast _ (by omega) (by omega) hborder

/-- The tokens after the earliest occurrence of the longest n-gram are proposed, and
nothing if there is none or no room. -/
theorem proposes_earliest_longest (k maxModelLen : ℕ) {minNgram maxNgram : ℕ} (hmin : 1 ≤ minNgram)
    (hmax : minNgram ≤ maxNgram) :
    ((∀ L, ¬Matched t minNgram maxNgram L) ∨ t.length < minNgram ∨ maxModelLen ≤ t.length →
      findLongestMatchedNgramAndProposeTokens t minNgram maxNgram maxModelLen k = some []) ∧
    ∀ L e, Matched t minNgram maxNgram L → (∀ L', Matched t minNgram maxNgram L' → L' ≤ L) →
      Occurs t L e → (∀ e', Occurs t L e' → e ≤ e') → t.length < maxModelLen →
      let count := min k (min (maxModelLen - t.length) (t.length - e))
      findLongestMatchedNgramAndProposeTokens t minNgram maxNgram maxModelLen k =
        some ((t.drop e).take count) ∧ ((t.drop e).take count).length = count ∧
        (1 ≤ k → 1 ≤ count) := by
  unfold findLongestMatchedNgramAndProposeTokens
  constructor
  · intro hnone
    dsimp only
    split_ifs with hn hk
    · rfl
    · rfl
    · obtain ⟨s, hscan, hcap, -, hfound⟩ := scan_finds t hmin hmax (not_lt.mp hn)
      rcases hnone with hnone | hnone | hnone
      · rw [hscan, Option.bind_eq_bind, Option.bind_some, if_pos]
        by_contra hlong
        exact hnone _ ⟨not_lt.mp hlong, hcap, _, (hfound (by omega)).1⟩
      · exact absurd hnone hn
      · omega
  · intro L e hmatched hlongest hocc hearliest hroom count
    have hlt := hocc.2.1
    have hle := hocc.1
    have hminle := hmatched.1
    obtain ⟨s, hscan, hcap, hgreatest, hfound⟩ := scan_finds t hmin hmax (by omega)
    have hge := hgreatest L e hocc hmatched.2.1
    obtain ⟨hfirst, hbefore⟩ := hfound (by omega)
    obtain rfl : L = s.longestNgram := hge.antisymm (hlongest _ ⟨by omega, hcap, _, hfirst⟩)
    obtain rfl : e = t.length - 1 - s.position + s.longestNgram :=
      (hearliest _ hfirst).antisymm (hbefore e hocc)
    refine ⟨?_, by simp [count], by omega⟩
    dsimp only
    rw [if_neg (by omega)]
    split_ifs with hk
    · obtain rfl : k = 0 := by omega
      simp [count]
    · rw [hscan, Option.bind_eq_bind, Option.bind_some, if_neg (by omega), min_assoc]

/-- The last two tokens begin the list too, and the next two are proposed. -/
theorem proposes_after_two_tokens :
    findLongestMatchedNgramAndProposeTokens [1, 2, 3, 1, 2] 1 2 10 2 = some [3, 1] := by
  have hocc : Occurs [1, 2, 3, 1, 2] 2 2 := ⟨le_rfl, by decide, by decide⟩
  exact ((proposes_earliest_longest [1, 2, 3, 1, 2] 2 10 le_rfl (by decide)).2 2 2
    ⟨by decide, le_rfl, 2, hocc⟩ (fun L h => h.2.1) hocc (fun e h => h.1) (by decide)).1

end Vllm.NgramProposer
