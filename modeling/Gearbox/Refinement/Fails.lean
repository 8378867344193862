import Gearbox.Refinement.Meets

/-!
# The errors of a program

Which errors a computation can end with. `FailsWith Q` holds of a result that is no error, or
an error with the property `Q`. The rules follow the constructs of a computation, first
without a state and then for a program that keeps one. What follows a first part may use how
that part ended. The last rules are for a program that is known to fail.
-/

namespace Refinement

variable {σ ε α γ : Type} {Q : ε → Prop}

/-- If the result is an error, the error has the property `Q`. -/
def FailsWith (Q : ε → Prop) (r : Except ε α) : Prop :=
  ∀ e, r = .error e → Q e

theorem failsWith_ok (a : α) : FailsWith Q (.ok a : Except ε α) :=
  nofun

theorem failsWith_error {e : ε} (h : Q e) : FailsWith Q (.error e : Except ε α) := by
  rintro _ ⟨⟩
  exact h

theorem FailsWith.bind {r : Except ε α} {f : α → Except ε γ} (hr : FailsWith Q r)
    (hf : ∀ a, r = .ok a → FailsWith Q (f a)) : FailsWith Q (r >>= f) := by
  cases r with
  | error e => exact failsWith_error (hr e rfl)
  | ok a => exact hf a rfl

theorem failsWith_ite {p : Prop} [Decidable p] {r r' : Except ε α} (hr : FailsWith Q r)
    (hr' : FailsWith Q r') : FailsWith Q (if p then r else r') := by
  split
  · exact hr
  · exact hr'

theorem failsWith_allM {f : α → Except ε Bool} {l : List α}
    (hf : ∀ a ∈ l, FailsWith Q (f a)) : FailsWith Q (l.allM f) := by
  induction l with
  | nil => exact failsWith_ok true
  | cons a l ih =>
      rw [List.allM]
      apply FailsWith.bind (hf a List.mem_cons_self)
      intro b _
      cases b with
      | true => exact ih fun a' ha' => hf a' (List.mem_cons_of_mem a ha')
      | false => exact failsWith_ok false

section Code

variable {m : Code σ ε α} {f : α → Code σ ε γ} {s s' : σ}

/-- The sequencing rule. -/
theorem FailsWith.seq (hm : FailsWith Q (outcome m s).1)
    (hf : ∀ a s', outcome m s = (.ok a, s') → FailsWith Q (outcome (f a) s').1) :
    FailsWith Q (outcome (m >>= f) s).1 := by
  cases hr : outcome m s with
  | mk r s' =>
      rw [hr] at hm
      cases r with
      | error e =>
          rw [outcome_bind_error hr]
          exact failsWith_error (hm e rfl)
      | ok a =>
          rw [outcome_bind_ok hr]
          exact hf a s' hr

/-- A step that always returns. -/
theorem FailsWith.step {a : α} (hm : outcome m s = (.ok a, s'))
    (hf : FailsWith Q (outcome (f a) s').1) : FailsWith Q (outcome (m >>= f) s).1 := by
  rw [outcome_bind_ok hm]
  exact hf

/-- A call of something that has no state. -/
theorem FailsWith.call {r : Except ε α} (hr : FailsWith Q r)
    (hf : ∀ a, r = .ok a → FailsWith Q (outcome (f a) s).1) :
    FailsWith Q (outcome ((liftM r : Code σ ε α) >>= f) s).1 := by
  cases r with
  | error e => exact failsWith_error (hr e rfl)
  | ok a => exact hf a rfl

/-- A program that fails after a step that returns. -/
theorem error_step {a : α} {e : ε} (hm : outcome m s = (.ok a, s'))
    (hf : (outcome (f a) s').1 = .error e) : (outcome (m >>= f) s).1 = .error e := by
  rw [outcome_bind_ok hm]
  exact hf

/-- A program that fails in its first part. -/
theorem error_first {e : ε} (hm : (outcome m s).1 = .error e) :
    (outcome (m >>= f) s).1 = .error e := by
  rw [outcome_bind_error (Prod.ext hm rfl)]

end Code

end Refinement
