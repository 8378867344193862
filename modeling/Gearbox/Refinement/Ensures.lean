import Gearbox.Refinement.Meets

/-!
# Both ends of a program

`Ensures Q E` holds of an outcome whose value and state have the property `Q` if the program
returned, and whose exception and state have the property `E` if it threw. The rules follow the
constructs of a program.
-/

namespace Refinement

variable {σ ε α γ : Type}

/-- What holds after the program returned, and after it threw. -/
def Ensures (Q : α → σ → Prop) (E : ε → σ → Prop) (r : Except ε α × σ) : Prop :=
  (∀ a s, r = (.ok a, s) → Q a s) ∧ ∀ e s, r = (.error e, s) → E e s

section Rules

variable {Q : α → σ → Prop} {E : ε → σ → Prop} {m : Code σ ε α} {s s' : σ}

theorem ensures_ok {r : Except ε α × σ} {a : α} (hr : r = (.ok a, s)) (h : Q a s) :
    Ensures Q E r := by
  subst hr
  constructor
  · rintro _ _ ⟨⟩
    exact h
  · rintro _ _ ⟨⟩

theorem ensures_error {r : Except ε α × σ} {e : ε} (hr : r = (.error e, s)) (h : E e s) :
    Ensures Q E r := by
  subst hr
  constructor
  · rintro _ _ ⟨⟩
  · rintro _ _ ⟨⟩
    exact h

theorem Ensures.mono {r : Except ε α × σ} {Q' : α → σ → Prop} {E' : ε → σ → Prop}
    (h : Ensures Q E r) (hQ : ∀ a s, Q a s → Q' a s) (hE : ∀ e s, E e s → E' e s) :
    Ensures Q' E' r :=
  ⟨fun a s hr => hQ a s (h.1 a s hr), fun e s hr => hE e s (h.2 e s hr)⟩

theorem Ensures.weaken {r : Except ε α × σ} {E' : ε → σ → Prop} (h : Ensures Q E r)
    (hE : ∀ e s, E e s → E' e s) : Ensures Q E' r :=
  h.mono (fun _ _ hq => hq) hE

/-- The sequencing rule. -/
theorem Ensures.bind {f : α → Code σ ε γ} {R : γ → σ → Prop} (hm : Ensures Q E (outcome m s))
    (hf : ∀ a s', Q a s' → Ensures R E (outcome (f a) s')) :
    Ensures R E (outcome (m >>= f) s) := by
  cases hr : outcome m s with
  | mk r s' =>
      cases r with
      | ok a =>
          rw [outcome_bind_ok hr]
          exact hf a s' (hm.1 a s' hr)
      | error e => exact ensures_error (outcome_bind_error hr) (hm.2 e s' hr)

/-- A step that returns. -/
theorem Ensures.step {f : α → Code σ ε γ} {R : γ → σ → Prop} {a : α}
    (hm : outcome m s = (.ok a, s')) (hf : Ensures R E (outcome (f a) s')) :
    Ensures R E (outcome (m >>= f) s) := by
  rwa [outcome_bind_ok hm]

/-- A call of something that has no state. -/
theorem Ensures.call {r : Except ε α} {f : α → Code σ ε γ} {R : γ → σ → Prop}
    (hf : ∀ a, r = .ok a → Ensures R E (outcome (f a) s)) (hE : ∀ e, r = .error e → E e s) :
    Ensures R E (outcome ((liftM r : Code σ ε α) >>= f) s) := by
  cases r with
  | ok a => exact hf a rfl
  | error e => exact ensures_error rfl (hE e rfl)

end Rules

end Refinement
