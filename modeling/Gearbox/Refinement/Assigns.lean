import Mathlib.Data.List.Infix
import Gearbox.Refinement.Meets

/-!
# Assignments to one variable

`Assigns g vs m` says which values the program `m` assigns to the variable `g` of the state. They
are the values `vs`, in this order, if the program returns. If it throws, the assignments up to
that point were made.
-/

namespace Refinement

variable {σ ε α β γ : Type}

/-- The value of a variable after some assignments. -/
def afterAll (vs : List β) (v : β) : β :=
  vs.getLast?.getD v

@[simp] theorem afterAll_nil (v : β) : afterAll [] v = v := rfl

@[simp] theorem afterAll_singleton (v w : β) : afterAll [w] v = w := rfl

theorem afterAll_append (vs ws : List β) (v : β) :
    afterAll (vs ++ ws) v = afterAll ws (afterAll vs v) := by
  rw [afterAll, afterAll, afterAll, List.getLast?_append]
  cases ws.getLast? with
  | none => rfl
  | some w => rfl

theorem afterAll_mem (vs : List β) (v : β) : afterAll vs v = v ∨ afterAll vs v ∈ vs := by
  rw [afterAll]
  cases hlast : vs.getLast? with
  | none => exact .inl rfl
  | some w => exact .inr (List.mem_of_getLast? hlast)

/-- The program assigns these values to a variable, the first of them only if it throws. -/
def Assigns (g : σ → β) (vs : List β) (m : Code σ ε α) : Prop :=
  ∀ s, ∃ done, done <+: vs ∧ g (outcome m s).2 = afterAll done (g s) ∧
    ∀ a, (outcome m s).1 = .ok a → done = vs

section Rules

variable {g : σ → β} {vs ws : List β} {m : Code σ ε α} {f : α → Code σ ε γ}

theorem assigns_pure (a : α) : Assigns g [] (pure a : Code σ ε α) :=
  fun _ => ⟨[], List.prefix_rfl, rfl, fun _ _ => rfl⟩

theorem assigns_throw (e : ε) : Assigns g vs (throw e : Code σ ε α) :=
  fun _ => ⟨[], List.nil_prefix, rfl, fun _ h => nomatch h⟩

theorem assigns_lift (r : Except ε α) : Assigns g [] (liftM r : Code σ ε α) :=
  fun _ => ⟨[], List.prefix_rfl, rfl, fun _ _ => rfl⟩

/-- A program that leaves the variable alone. -/
theorem assigns_of_keeps (h : ∀ v, Keeps (fun s => g s = v) m) : Assigns g [] m :=
  fun s => ⟨[], List.prefix_rfl, h (g s) s rfl, fun _ _ => rfl⟩

theorem assigns_modify {u : σ → σ} {v : β} (h : ∀ s, g (u s) = v) :
    Assigns g [v] (modify u : Code σ ε Unit) :=
  fun s => ⟨[v], List.prefix_rfl, h s, fun _ _ => rfl⟩

theorem Assigns.bind (hm : Assigns g vs m) (hf : ∀ a, Assigns g ws (f a)) :
    Assigns g (vs ++ ws) (m >>= f) := by
  intro s
  obtain ⟨done, hsome, hvalue, hall⟩ := hm s
  cases houtcome : outcome m s with
  | mk r s' =>
      rw [houtcome] at hvalue hall
      cases r with
      | error e =>
          rw [outcome_bind_error houtcome]
          exact ⟨done, hsome.trans (List.prefix_append vs ws), hvalue, fun _ h => nomatch h⟩
      | ok a =>
          obtain ⟨next, hnext, hvalue', hall'⟩ := hf a s'
          have hdone : done = vs := hall a rfl
          subst hdone
          rw [outcome_bind_ok houtcome]
          refine ⟨done ++ next, (List.prefix_append_right_inj done).mpr hnext, ?_, ?_⟩
          · rw [hvalue', afterAll_append]
            exact congrArg (afterAll next) hvalue
          · intro b hb
            rw [hall' b hb]

/-- The first part does not assign to the variable. -/
theorem Assigns.after (hm : Assigns g [] m) (hf : ∀ a, Assigns g ws (f a)) :
    Assigns g ws (m >>= f) :=
  hm.bind hf

/-- The second part does not assign to the variable. -/
theorem Assigns.before (hm : Assigns g vs m) (hf : ∀ a, Assigns g [] (f a)) :
    Assigns g vs (m >>= f) := by
  have hbind := hm.bind hf
  rwa [List.append_nil] at hbind

/-- A program that returns has made all assignments. -/
theorem Assigns.of_ok (hm : Assigns g vs m) {s s' : σ} {a : α}
    (h : outcome m s = (.ok a, s')) : g s' = afterAll vs (g s) := by
  obtain ⟨done, -, hvalue, hall⟩ := hm s
  rw [h] at hvalue hall
  rw [hvalue, hall a rfl]

/-- A program that throws has made the first assignments. -/
theorem Assigns.of_error (hm : Assigns g vs m) {s s' : σ} {e : ε}
    (h : outcome m s = (.error e, s')) : ∃ done, done <+: vs ∧ g s' = afterAll done (g s) := by
  obtain ⟨done, hsome, hvalue, -⟩ := hm s
  rw [h] at hvalue
  exact ⟨done, hsome, hvalue⟩

end Rules

end Refinement
