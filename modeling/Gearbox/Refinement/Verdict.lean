import Gearbox.Refinement.Meets

/-!
# Programs that answer

A program that may throw may also return an answer that stops the work of its caller. A
`Verdict` is the abstract result of such a program: the work goes on with a value, a check
answers `false`, something that the work needs is missing, or the program throws. Verdicts
are sequenced like exceptions, and everything but a value ends the work.

`Ends` compares the outcome of a program with a verdict. Its parameters `no` and `gone` are
the results by which the program tells its caller that a check failed and that something is
missing. In the sequencing rule the rest of the program turns the results of its first part
into its own.
-/

namespace Refinement

variable {σ ε α β γ δ : Type}

/-- How the work of a program ends. -/
inductive Verdict (β : Type) where
  | passed (b : β)
  | failed
  | missing
  | raised
  deriving DecidableEq, Repr

namespace Verdict

/-- What follows is done with a value only. -/
def andThen (v : Verdict β) (g : β → Verdict δ) : Verdict δ :=
  match v with
  | passed b => g b
  | failed => failed
  | missing => missing
  | raised => raised

instance : Monad Verdict where
  pure := passed
  bind := andThen

@[simp] theorem pure_eq (b : β) : (pure b : Verdict β) = passed b := rfl

@[simp] theorem passed_bind (b : β) (g : β → Verdict δ) : (passed b >>= g) = g b := rfl

@[simp] theorem failed_bind (g : β → Verdict δ) : ((failed : Verdict β) >>= g) = failed := rfl

@[simp] theorem missing_bind (g : β → Verdict δ) :
    ((missing : Verdict β) >>= g) = missing := rfl

@[simp] theorem raised_bind (g : β → Verdict δ) : ((raised : Verdict β) >>= g) = raised := rfl

theorem andThen_assoc (v : Verdict β) (g : β → Verdict γ) (k : γ → Verdict δ) :
    (v >>= g) >>= k = v >>= fun b => g b >>= k := by
  cases v <;> rfl

theorem bind_passed (v : Verdict β) : (v >>= passed) = v := by
  cases v <;> rfl

theorem bind_eq_passed {v : Verdict β} {g : β → Verdict δ} {d : δ} :
    (v >>= g) = passed d ↔ ∃ b, v = passed b ∧ g b = passed d := by
  cases v <;> simp

/-- The verdict of a check. -/
def ofCheck : Except ε Bool → Verdict Unit
  | .ok true => passed ()
  | .ok false => failed
  | .error _ => raised

/-- The verdict of a call that returns a value or throws. -/
def ofResult : Except ε α → Verdict α
  | .ok a => passed a
  | .error _ => raised

/-- The verdict of a program that only throws. -/
def ofOption : Option β → Verdict β
  | some b => passed b
  | none => raised

theorem ofOption_bind (o : Option β) (g : β → Option δ) :
    ofOption (o.bind g) = ofOption o >>= fun b => ofOption (g b) := by
  cases o <;> rfl

theorem ofOption_value? (r : Except ε α) : ofOption (value? r) = ofResult r := by
  cases r <;> rfl

/-- A check that throws or returns `true`. -/
theorem ofOption_accepts {r : Except ε Bool} (h : r ≠ .ok false) :
    ofOption (accepts r) = ofCheck r := by
  cases r with
  | error e => rfl
  | ok b =>
      cases b with
      | false => exact absurd rfl h
      | true => rfl

theorem ofCheck_eq_passed {r : Except ε Bool} {u : Unit} :
    ofCheck r = passed u ↔ r = .ok true := by
  cases r with
  | error e => simp [ofCheck]
  | ok b => cases b <;> simp [ofCheck]

section Missing

theorem bind_eq_missing {v : Verdict β} {g : β → Verdict δ} :
    (v >>= g) = missing ↔ v = missing ∨ ∃ b, v = passed b ∧ g b = missing := by
  cases v <;> simp

/-- A first part that needs nothing. -/
theorem bind_eq_missing_of_ne {v : Verdict β} {g : β → Verdict δ} (hv : v ≠ missing) :
    (v >>= g) = missing ↔ ∃ b, v = passed b ∧ g b = missing := by
  rw [bind_eq_missing]
  simp [hv]

/-- A last part that needs nothing. -/
theorem bind_eq_missing_iff {v : Verdict β} {g : β → Verdict δ} (hg : ∀ b, g b ≠ missing) :
    (v >>= g) = missing ↔ v = missing := by
  rw [bind_eq_missing]
  simp [hg]

theorem bind_ne_missing {v : Verdict β} {g : β → Verdict δ} (hv : v ≠ missing)
    (hg : ∀ b, g b ≠ missing) : (v >>= g) ≠ missing := by
  rw [ne_eq, bind_eq_missing_of_ne hv]
  rintro ⟨b, -, hb⟩
  exact hg b hb

theorem ofCheck_ne_missing (r : Except ε Bool) : ofCheck r ≠ missing := by
  cases r with
  | error e => simp [ofCheck]
  | ok b => cases b <;> simp [ofCheck]

theorem ofResult_ne_missing (r : Except ε α) : ofResult r ≠ missing := by
  cases r <;> simp [ofResult]

theorem ofOption_ne_missing (o : Option β) : ofOption o ≠ missing := by
  cases o <;> simp [ofOption]

end Missing

section Failed

theorem bind_ne_failed {v : Verdict β} {g : β → Verdict δ} (hv : v ≠ failed)
    (hg : ∀ b, g b ≠ failed) : (v >>= g) ≠ failed := by
  cases v with
  | passed b => exact hg b
  | failed => exact absurd rfl hv
  | missing => simp
  | raised => simp

theorem ofCheck_ne_failed {r : Except ε Bool} (h : r ≠ .ok false) : ofCheck r ≠ failed := by
  cases r with
  | error e => simp [ofCheck]
  | ok b =>
      cases b with
      | false => exact absurd rfl h
      | true => simp [ofCheck]

end Failed

/-- The work goes on with the value of `o` only. -/
def Within (v : Verdict β) (o : Option β) : Prop :=
  ∀ b, v = passed b → o = some b

section Within

theorem within_passed (b : β) : Within (passed b) (some b) := by
  rintro _ ⟨⟩
  rfl

theorem within_raised (o : Option β) : Within raised o :=
  fun _ h => nomatch h

/-- What follows looks only at a part of the value. -/
theorem Within.bind_map {v : Verdict β} {o : Option γ} {f : β → γ} {g : β → Verdict δ}
    {k : γ → Option δ} (hv : ∀ b, v = passed b → o = some (f b))
    (hg : ∀ b, Within (g b) (k (f b))) : Within (v >>= g) (o.bind k) := by
  intro d h
  cases v with
  | passed b =>
      rw [hv b rfl]
      exact hg b d h
  | failed => cases h
  | missing => cases h
  | raised => cases h

end Within

end Verdict

open Verdict

/-- The outcome `r` of a program is what the verdict `v` says, and the state that is left
has the property `P`. -/
def Ends (no gone : Except ε α) (r : Except ε α × σ) (v : Verdict β) (P : σ → Prop)
    (Q : α → β → σ → Prop) : Prop :=
  P r.2 ∧
    match v with
    | passed b => ∃ a, r.1 = .ok a ∧ Q a b r.2
    | failed => r.1 = no
    | missing => r.1 = gone
    | raised => ∃ e, r.1 = .error e

variable {no gone : Except ε α} {no' gone' : Except ε γ} {v : Verdict β} {P : σ → Prop}
  {Q : α → β → σ → Prop} {R : γ → δ → σ → Prop} {s s' : σ}

theorem ends_ok {r : Except ε α × σ} {a : α} {b : β} (hr : r = (.ok a, s)) (hP : P s)
    (hQ : Q a b s) : Ends no gone r (passed b) P Q := by
  subst hr
  exact ⟨hP, a, rfl, hQ⟩

theorem ends_error {r : Except ε α × σ} {e : ε} (hr : r = (.error e, s)) (hP : P s) :
    Ends no gone r (raised : Verdict β) P Q := by
  subst hr
  exact ⟨hP, e, rfl⟩

theorem ends_failed {r : Except ε α × σ} (hr : r = (no, s)) (hP : P s) :
    Ends no gone r (failed : Verdict β) P Q := by
  subst hr
  exact ⟨hP, rfl⟩

theorem ends_missing {r : Except ε α × σ} (hr : r = (gone, s)) (hP : P s) :
    Ends no gone r (missing : Verdict β) P Q := by
  subst hr
  exact ⟨hP, rfl⟩

theorem ends_pure {a : α} {b : β} (hP : P s) (hQ : Q a b s) :
    Ends no gone (outcome (pure a : Code σ ε α) s) (passed b) P Q :=
  ends_ok rfl hP hQ

theorem Ends.mono {r : Except ε α × σ} {P' : σ → Prop} {Q' : α → β → σ → Prop}
    (h : Ends no gone r v P Q) (hP : ∀ s, P s → P' s)
    (hQ : ∀ a b s, v = passed b → P s → Q a b s → Q' a b s) :
    Ends no gone r v P' Q' := by
  cases v with
  | passed b =>
      obtain ⟨hs, a, ha, hq⟩ := h
      exact ⟨hP _ hs, a, ha, hQ a b _ rfl hs hq⟩
  | _ => exact ⟨hP _ h.1, h.2⟩

/-- Nothing is missing. -/
theorem Ends.of_ne_missing {r : Except ε α × σ} (h : Ends no gone r v P Q)
    (hv : v ≠ missing) (gone' : Except ε α) : Ends no gone' r v P Q := by
  cases v with
  | missing => exact absurd rfl hv
  | _ => exact h

theorem Ends.meets {r : Except ε α × σ} {o : Option β}
    (h : Ends no gone r (ofOption o) P Q) : Meets r o P Q := by
  cases o with
  | none => exact h
  | some b => exact h

/-- What is known when the program returned something that is no answer. -/
theorem Ends.of_ok {r : Except ε α × σ} (h : Ends no gone r v P Q) {a : α}
    (hr : r = (.ok a, s)) (hno : no ≠ .ok a) (hgone : gone ≠ .ok a) :
    ∃ b, v = passed b ∧ P s ∧ Q a b s := by
  subst hr
  cases v with
  | passed b =>
      obtain ⟨hs, a', ha, hq⟩ := h
      cases ha
      exact ⟨b, rfl, hs, hq⟩
  | failed => exact absurd h.2.symm hno
  | missing => exact absurd h.2.symm hgone
  | raised =>
      obtain ⟨-, e, he⟩ := h
      cases he

/-- A program that goes on with a value does not throw. -/
theorem Ends.ne_error {r : Except ε α × σ} {b : β} (h : Ends no gone r (passed b) P Q)
    (e : ε) : r.1 ≠ .error e := by
  obtain ⟨-, a, ha, -⟩ := h
  rw [ha]
  exact nofun

/-- The sequencing rule. -/
theorem Ends.bind {m : Code σ ε α} {f : α → Code σ ε γ} {g : β → Verdict δ}
    (h : Ends no gone (outcome m s) v P Q)
    (hno : v = failed → ∀ s, outcome ((liftM no : Code σ ε α) >>= f) s = (no', s))
    (hgone : v = missing → ∀ s, outcome ((liftM gone : Code σ ε α) >>= f) s = (gone', s))
    (hf : ∀ a b s', v = passed b → P s' → Q a b s' →
      Ends no' gone' (outcome (f a) s') (g b) P R) :
    Ends no' gone' (outcome (m >>= f) s) (v >>= g) P R := by
  have hrest : ∀ r s', outcome m s = (r, s') →
      outcome (m >>= f) s = outcome ((liftM r : Code σ ε α) >>= f) s' := by
    intro r s' hm
    cases r with
    | error e => rw [outcome_bind_error hm, outcome_bind_error (outcome_lift _ s')]
    | ok a => rw [outcome_bind_ok hm, outcome_bind_ok (outcome_lift _ s')]
  cases hm : outcome m s with
  | mk r s' =>
      rw [hm] at h
      cases v with
      | passed b =>
          obtain ⟨hs, a, rfl, hq⟩ := h
          rw [outcome_bind_ok hm]
          exact hf a b s' rfl hs hq
      | failed =>
          obtain ⟨hs, rfl⟩ := h
          exact ends_failed ((hrest _ s' hm).trans (hno rfl s')) hs
      | missing =>
          obtain ⟨hs, rfl⟩ := h
          exact ends_missing ((hrest _ s' hm).trans (hgone rfl s')) hs
      | raised =>
          obtain ⟨hs, e, rfl⟩ := h
          exact ends_error (outcome_bind_error hm) hs

/-- A step that always returns. -/
theorem Ends.step {m : Code σ ε α} {f : α → Code σ ε γ} {v : Verdict δ} {a : α}
    (hm : outcome m s = (.ok a, s')) (h : Ends no' gone' (outcome (f a) s') v P R) :
    Ends no' gone' (outcome (m >>= f) s) v P R := by
  rw [outcome_bind_ok hm]
  exact h

/-- A step that always throws. -/
theorem Ends.fail {m : Code σ ε α} {f : α → Code σ ε γ} {e : ε}
    (hm : outcome m s = (.error e, s')) (h : P s') :
    Ends no' gone' (outcome (m >>= f) s) (raised : Verdict δ) P R :=
  ends_error (outcome_bind_error hm) h

/-- A first part that only throws. -/
theorem Ends.bind_meets {m : Code σ ε α} {f : α → Code σ ε γ} {o : Option β}
    {g : β → Verdict δ} (h : Meets (outcome m s) o P Q)
    (hf : ∀ a b s', o = some b → P s' → Q a b s' →
      Ends no' gone' (outcome (f a) s') (g b) P R) :
    Ends no' gone' (outcome (m >>= f) s) (ofOption o >>= g) P R := by
  rcases h.cases with ⟨e, s', hm, rfl, hs⟩ | ⟨a, b, s', hm, rfl, hs, hq⟩
  · exact ends_error (outcome_bind_error hm) hs
  · rw [outcome_bind_ok hm]
    exact hf a b s' rfl hs hq

/-- A call of something that has no state. -/
theorem Ends.bind_lift {r : Except ε α} {f : α → Code σ ε γ} {g : α → Verdict δ} (hP : P s)
    (hf : ∀ a, r = .ok a → Ends no' gone' (outcome (f a) s) (g a) P R) :
    Ends no' gone' (outcome ((liftM r : Code σ ε α) >>= f) s) (ofResult r >>= g) P R := by
  cases r with
  | error e => exact Ends.fail (outcome_lift _ s) hP
  | ok a => exact Ends.step (outcome_lift _ s) (hf a rfl)

/-- The branch on a check. -/
theorem Ends.bind_check {r : Except ε Bool} {f : Bool → Code σ ε γ} {v : Verdict δ}
    (hP : P s) (hno : outcome (f false) s = (no', s))
    (hf : r = .ok true → Ends no' gone' (outcome (f true) s) v P R) :
    Ends no' gone' (outcome ((liftM r : Code σ ε Bool) >>= f) s)
      (ofCheck r >>= fun _ => v) P R := by
  cases r with
  | error e => exact Ends.fail (outcome_lift _ s) hP
  | ok b =>
      cases b with
      | false => exact ends_failed ((outcome_bind_ok (outcome_lift _ s)).trans hno) hP
      | true => exact Ends.step (outcome_lift _ s) (hf rfl)

/-- A check at the end of a program. -/
theorem ends_check {r : Except ε Bool} {gone : Except ε Bool} (hP : P s) :
    Ends (.ok false) gone (outcome (liftM r : Code σ ε Bool) s) (ofCheck r) P
      (fun b _ _ => b = true) := by
  cases r with
  | error e => exact ends_error (outcome_lift _ s) hP
  | ok b =>
      cases b with
      | false => exact ends_failed (outcome_lift _ s) hP
      | true => exact ends_ok (outcome_lift _ s) hP rfl

end Refinement
