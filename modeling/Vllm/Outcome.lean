import Mathlib.Algebra.Order.Ring.Int
import Mathlib.Algebra.Order.Ring.Nat
import Mathlib.Order.Fin.Basic

/-!
Pre- and postconditions for stateful computations that may stop with an error.
A computation that stops keeps the state it had reached, so both outcomes
carry a postcondition on the final state. The rules below are the only ones
the developments over such computations use: sequencing, weakening, guards
and loops over a list.
-/
namespace Vllm.Outcome

variable {ε σ τ α β : Type} {m : EStateM ε σ α} {s : σ} {Q : α → σ → Prop} {f : α → EStateM ε σ β}

/-- The exceptions the modelled code raises, with their texts. -/
inductive Failure where
  | assertionError (message : String)
  | valueError (message : String)
  | runtimeError (message : String)
  | indexError (message : String)
  | keyError (message : String)
deriving DecidableEq, Repr

def check (c : Prop) [Decidable c] (e : ε) : EStateM ε σ PUnit :=
  if c then pure ⟨⟩ else throw e

def onlyIf (c : Prop) [Decidable c] (m : EStateM ε σ PUnit) : EStateM ε σ PUnit :=
  if c then m else pure ⟨⟩

def expect (o : Option α) (e : ε) : EStateM ε σ α :=
  match o with
  | some a => pure a
  | none => throw e

def zoom (get : σ → τ) (put : σ → τ → σ) (m : EStateM ε τ α) : EStateM ε σ α := fun s =>
  match m.run (get s) with
  | .ok a t => .ok a (put s t)
  | .error e t => .error e (put s t)

/-- From `s` the computation either returns with `Q` or stops with `E`. -/
def Ensures (m : EStateM ε σ α) (s : σ) (Q : α → σ → Prop) (E : ε → σ → Prop) : Prop :=
  match m.run s with
  | .ok a t => Q a t
  | .error e t => E e t

/-- However the computation ends, the final state is related to the first. -/
def Within (R : σ → σ → Prop) (m : EStateM ε σ α) : Prop :=
  ∀ s, Ensures m s (fun _ t => R s t) (fun _ t => R s t)

/-- The state in which the computation ends, returned or stopped. -/
def Leads (m : EStateM ε σ α) (s t : σ) : Prop :=
  Ensures m s (fun _ u => u = t) (fun _ u => u = t)

@[simp]
theorem ensures_pure (a : α) (s : σ) (Q : α → σ → Prop) (E : ε → σ → Prop) :
    Ensures (pure a) s Q E ↔ Q a s := Iff.rfl

@[simp]
theorem ensures_get (s : σ) (Q : σ → σ → Prop) (E : ε → σ → Prop) :
    Ensures get s Q E ↔ Q s s := Iff.rfl

@[simp]
theorem ensures_set (s t : σ) (Q : PUnit → σ → Prop) (E : ε → σ → Prop) :
    Ensures (set t) s Q E ↔ Q ⟨⟩ t := Iff.rfl

@[simp]
theorem ensures_modify (f : σ → σ) (s : σ) (Q : PUnit → σ → Prop) (E : ε → σ → Prop) :
    Ensures (modify f) s Q E ↔ Q ⟨⟩ (f s) := Iff.rfl

variable {Q' : α → σ → Prop} (c : Prop) {t : σ} (e : ε) {a : α}

@[simp]
theorem ensures_throw (s : σ) (Q : α → σ → Prop) (E : ε → σ → Prop) :
    Ensures (throw e) s Q E ↔ E e s := Iff.rfl

@[simp]
theorem ensures_bind (m : EStateM ε σ α) (f : α → EStateM ε σ β) (s : σ)
    (Q : β → σ → Prop) (E : ε → σ → Prop) :
    Ensures (m >>= f) s Q E ↔ Ensures m s (fun a t => Ensures (f a) t Q E) E := by
  unfold Ensures
  rw [EStateM.run_bind]
  cases m.run s <;> rfl

@[simp]
theorem ensures_map (m : EStateM ε σ α) (f : α → β) (s : σ)
    (Q : β → σ → Prop) (E : ε → σ → Prop) :
    Ensures (f <$> m) s Q E ↔ Ensures m s (fun a t => Q (f a) t) E := by
  rw [← bind_pure_comp, ensures_bind]
  rfl

@[simp]
theorem ensures_discard (m : EStateM ε σ α) (s : σ) (Q : PUnit → σ → Prop) (E : ε → σ → Prop) :
    Ensures (discard m) s Q E ↔ Ensures m s (fun _ t => Q ⟨⟩ t) E :=
  ensures_map m (Function.const _ PUnit.unit) s Q E

theorem ensures_ite [Decidable c] (m k : EStateM ε σ α) (s : σ) (Q : α → σ → Prop)
    (E : ε → σ → Prop) :
    Ensures (if c then m else k) s Q E ↔ (c → Ensures m s Q E) ∧ (¬ c → Ensures k s Q E) := by
  by_cases hc : c <;> simp [hc]

@[simp]
theorem ensures_check [Decidable c] (s : σ) (Q : PUnit → σ → Prop) (E : ε → σ → Prop) :
    Ensures (check c e) s Q E ↔ (c → Q ⟨⟩ s) ∧ (¬ c → E e s) := by
  rw [check, ensures_ite, ensures_pure, ensures_throw]

@[simp]
theorem ensures_onlyIf [Decidable c] (m : EStateM ε σ PUnit) (s : σ) (Q : PUnit → σ → Prop)
    (E : ε → σ → Prop) : Ensures (onlyIf c m) s Q E ↔ (c → Ensures m s Q E) ∧ (¬ c → Q ⟨⟩ s) := by
  rw [onlyIf, ensures_ite, ensures_pure]

theorem ensures_expect (o : Option α) (e : ε) (s : σ) (Q : α → σ → Prop) (E : ε → σ → Prop) :
    Ensures (expect o e) s Q E ↔ (∀ a, o = some a → Q a s) ∧ (o = none → E e s) := by
  cases o <;> simp [expect]

@[simp]
theorem ensures_zoom (get : σ → τ) (put : σ → τ → σ) (m : EStateM ε τ α) (s : σ)
    (Q : α → σ → Prop) (E : ε → σ → Prop) :
    Ensures (zoom get put m) s Q E ↔
      Ensures m (get s) (fun a t => Q a (put s t)) (fun e t => E e (put s t)) := by
  unfold Ensures zoom
  simp only [EStateM.run]
  cases m (get s) <;> rfl

/-- Both postconditions may be weakened. -/
theorem Ensures.mono {E E' : ε → σ → Prop} (h : Ensures m s Q E) (hQ : ∀ a t, Q a t → Q' a t)
    (hE : ∀ e t, E e t → E' e t) : Ensures m s Q' E' := by
  unfold Ensures at *
  cases hm : m.run s with
  | ok a t => rw [hm] at h; exact hQ a t h
  | error e t => rw [hm] at h; exact hE e t h

theorem Ensures.imp {E : ε → σ → Prop} (h : Ensures m s Q E) (hQ : ∀ a t, Q a t → Q' a t) :
    Ensures m s Q' E :=
  h.mono hQ fun _ _ he => he

theorem Ensures.weaken {E : ε → σ → Prop} (h : Ensures m s Q E) (hQ : ∀ a t, Q a t → Q' a t) :
    Ensures m s Q' fun _ _ => True :=
  h.mono hQ fun _ _ _ => trivial

/-- Postconditions that always hold say nothing about the run. -/
theorem Ensures.of_forall {E : ε → σ → Prop}
    (hQ : ∀ a t, Q a t) (hE : ∀ e t, E e t) : Ensures m s Q E := by
  unfold Ensures
  split
  · exact hQ _ _
  · exact hE _ _

/-- Two facts about one run hold together of its outcome. -/
theorem Ensures.and {E E' : ε → σ → Prop} (h : Ensures m s Q E) (h' : Ensures m s Q' E') :
    Ensures m s (fun a t => Q a t ∧ Q' a t) (fun e t => E e t ∧ E' e t) := by
  unfold Ensures at *
  cases hm : m.run s with
  | ok a t => rw [hm] at h h'; exact ⟨h, h'⟩
  | error e t => rw [hm] at h h'; exact ⟨h, h'⟩

theorem ensures_of_run_ok {E : ε → σ → Prop} (hm : m.run s = .ok a t) (hQ : Q a t) :
    Ensures m s Q E := by
  unfold Ensures
  rw [hm]
  exact hQ

/-- The strongest postcondition: the result of the run itself. -/
theorem ensures_run (m : EStateM ε σ α) (s : σ) :
    Ensures m s (fun a t => m.run s = .ok a t) (fun e t => m.run s = .error e t) := by
  unfold Ensures
  split
  · assumption
  · assumption

/-- A run that returned satisfies the postcondition. -/
theorem Ensures.of_ok {E : ε → σ → Prop} (h : Ensures m s Q E) (hm : m.run s = .ok a t) :
    Q a t := by
  unfold Ensures at h
  rwa [hm] at h

theorem Ensures.of_error {e : ε} {E : ε → σ → Prop} (h : Ensures m s Q E)
    (hm : m.run s = .error e t) : E e t := by
  unfold Ensures at h
  rwa [hm] at h

/-- A run that cannot stop has a returned value and a final state. -/
theorem Ensures.exists_ok
    (h : Ensures m s Q (fun _ _ => False)) : ∃ a t, m.run s = .ok a t ∧ Q a t := by
  unfold Ensures at h
  cases hm : m.run s with
  | ok a t => rw [hm] at h; exact ⟨a, t, rfl, h⟩
  | error e t => rw [hm] at h; exact h.elim

/-- A run that cannot return stops with an error. -/
theorem Ensures.exists_error {E : ε → σ → Prop}
    (h : Ensures m s (fun _ _ => False) E) : ∃ e t, m.run s = .error e t ∧ E e t := by
  unfold Ensures at h
  cases hm : m.run s with
  | ok a t => rw [hm] at h; exact h.elim
  | error e t => rw [hm] at h; exact ⟨e, t, rfl, h⟩

/-- An invariant of the body holds after the loop. -/
theorem ensures_forM {I : σ → Prop} {E : ε → σ → Prop} (f : α → EStateM ε σ PUnit)
    (l : List α) (hstep : ∀ a ∈ l, ∀ t, I t → Ensures (f a) t (fun _ u => I u) E)
    (s : σ) (hs : I s) : Ensures (forM l f) s (fun _ t => I t) E := by
  induction l generalizing s with
  | nil => exact hs
  | cons a l ih =>
    rw [List.forM_cons, ensures_bind]
    refine (hstep a List.mem_cons_self s hs).imp ?_
    intro _ t ht
    exact ih (fun b hb => hstep b (List.mem_cons_of_mem a hb)) t ht

section
variable {R : σ → σ → Prop}

/-- The relation holds for whatever state the run ends in. -/
theorem Within.of_leads (hm : Within R m) {t : σ} (h : Leads m s t) : R s t := by
  have hboth := (hm s).and h
  unfold Ensures at hboth
  cases hrun : m.run s with
  | ok a u =>
    rw [hrun] at hboth
    exact hboth.2 ▸ hboth.1
  | error e u =>
    rw [hrun] at hboth
    exact hboth.2 ▸ hboth.1

theorem within_modify {f : σ → σ} (h : ∀ s, R s (f s)) :
    Within R (modify f : EStateM ε σ PUnit) := h

theorem Within.mono {R' : σ → σ → Prop} (hm : Within R m)
    (h : ∀ s t, R s t → R' s t) : Within R' m := fun s =>
  (hm s).mono (fun _ t => h s t) (fun _ t => h s t)

theorem Within.map (hm : Within R m) (f : α → β) : Within R (f <$> m) := by
  intro s
  rw [ensures_map]
  exact hm s

theorem within_ite {c : Prop} [Decidable c] {k : EStateM ε σ α} (hm : Within R m)
    (hk : Within R k) : Within R (if c then m else k) := by
  intro s
  rw [ensures_ite]
  exact ⟨fun _ => hm s, fun _ => hk s⟩

/-- A computation that reads the state first may be judged state by state. -/
theorem within_get_bind {f : σ → EStateM ε σ α}
    (h : ∀ s, Ensures (f s) s (fun _ t => R s t) (fun _ t => R s t)) :
    Within R (get >>= f) := by
  intro s
  rw [ensures_bind, ensures_get]
  exact h s

variable [IsPreorder σ R]

theorem within_pure (a : α) : Within R (pure a : EStateM ε σ α) := fun s => refl_of R s

theorem within_get : Within R (get : EStateM ε σ σ) := fun s => refl_of R s

theorem within_throw (e : ε) : Within R (throw e : EStateM ε σ α) := fun s => refl_of R s

/-- Sequencing, with the relation to the first state known in between. -/
theorem Ensures.bind_trans
    (hm : Ensures m s (fun _ t => R s t) (fun _ t => R s t))
    (hf : ∀ a t, R s t → Ensures (f a) t (fun _ u => R t u) (fun _ u => R t u)) :
    Ensures (m >>= f) s (fun _ t => R s t) (fun _ t => R s t) := by
  rw [ensures_bind]
  refine hm.imp ?_
  intro a t hst
  exact (hf a t hst).mono (fun _ _ htu => trans_of R hst htu) (fun _ _ htu => trans_of R hst htu)

/-- A preorder that both parts keep is kept by the sequence. -/
theorem Within.bind (hm : Within R m)
    (hf : ∀ a, Within R (f a)) : Within R (m >>= f) := fun s =>
  (hm s).bind_trans fun a t _ => hf a t

theorem within_check (c : Prop) [Decidable c] (e : ε) : Within R (check c e : EStateM ε σ PUnit) :=
  within_ite (within_pure _) (within_throw e)

theorem within_onlyIf (c : Prop) [Decidable c] {m : EStateM ε σ PUnit} (hm : Within R m) :
    Within R (onlyIf c m) :=
  within_ite hm (within_pure _)

theorem within_expect (o : Option α) (e : ε) : Within R (expect o e : EStateM ε σ α) := by
  cases o with
  | none => exact within_throw e
  | some a => exact within_pure a

/-- It is kept by a loop whose body keeps it. -/
theorem within_forM (f : α → EStateM ε σ PUnit) (l : List α) (h : ∀ a ∈ l, Within R (f a)) :
    Within R (forM l f) := by
  intro s
  refine ensures_forM (I := fun t => R s t) f l ?_ s (refl_of R s)
  intro a ha t hst
  exact (h a ha t).mono (fun _ _ htu => trans_of R hst htu) (fun _ _ htu => trans_of R hst htu)
end

/-- Whatever the computation is started from, it stops only with errors of
`E`. -/
def Fails (E : ε → Prop) (m : EStateM ε σ α) : Prop :=
  ∀ s, Ensures m s (fun _ _ => True) (fun e _ => E e)

variable {E : ε → Prop}

theorem fails_pure (a : α) : Fails E (pure a : EStateM ε σ α) := fun _ => trivial

theorem fails_get : Fails E (get : EStateM ε σ σ) := fun _ => trivial

theorem fails_set (t : σ) : Fails E (set t : EStateM ε σ PUnit) := fun _ => trivial

theorem fails_modify (f : σ → σ) : Fails E (modify f : EStateM ε σ PUnit) := fun _ => trivial

theorem fails_modifyGet (f : σ → α × σ) : Fails E (modifyGet f : EStateM ε σ α) := fun _ => trivial

/-- A sequence stops with the errors of its parts. -/
theorem Fails.bind (hm : Fails E m)
    (hf : ∀ a, Fails E (f a)) : Fails E (m >>= f) := by
  intro s
  rw [ensures_bind]
  exact (hm s).imp (fun a t _ => hf a t)

theorem fails_check {c : Prop} [Decidable c] {e : ε} (he : E e) :
    Fails E (check c e : EStateM ε σ PUnit) := by
  intro s
  rw [ensures_check]
  exact ⟨fun _ => trivial, fun _ => he⟩

theorem fails_expect {o : Option α} {e : ε} (he : E e) : Fails E (expect o e : EStateM ε σ α) := by
  intro s
  rw [ensures_expect]
  exact ⟨fun _ _ => trivial, fun _ => he⟩

theorem fails_ite {c : Prop} [Decidable c] {k : EStateM ε σ α} (hm : Fails E m)
    (hk : Fails E k) : Fails E (if c then m else k) := by
  intro s
  rw [ensures_ite]
  exact ⟨fun _ => hm s, fun _ => hk s⟩

theorem fails_zoom {get : σ → τ} {put : σ → τ → σ} {m : EStateM ε τ α} (hm : Fails E m) :
    Fails E (zoom get put m) := by
  intro s
  rw [ensures_zoom]
  exact hm (get s)

theorem fails_forM {f : α → EStateM ε σ PUnit} {l : List α} (h : ∀ a ∈ l, Fails E (f a)) :
    Fails E (forM l f) := fun s =>
  ensures_forM (I := fun _ => True) f l (fun a ha t _ => h a ha t) s trivial

end Vllm.Outcome
