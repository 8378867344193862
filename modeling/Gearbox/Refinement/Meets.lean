import Mathlib.Data.List.Forall2
import Mathlib.Tactic.Common

/-!
# Refinement of a program by a partial function

A program that keeps a state and may throw is compared with an abstract result, which is
a value or nothing. The program meets a value if it returns a result that is related to
the value, and it meets nothing if it throws. The state that it leaves has a property in
both cases. The rules follow the constructs of a program: return, throw, sequencing, and a
call of something that has no state.

A program keeps a property of the state if the property holds after it whenever it held
before, however the program ends.
-/

namespace Refinement

variable {σ ε α β γ δ : Type}

/-- A program with a state that is kept when it throws. -/
abbrev Code (σ ε : Type) : Type → Type :=
  ExceptT ε (StateM σ)

/-- The outcome of a program: how it ends and the state that it leaves. -/
def outcome (m : Code σ ε α) (s : σ) : Except ε α × σ :=
  StateT.run (ExceptT.run m) s

/-- A program that is given by its outcomes. -/
def Code.mk (f : σ → Except ε α × σ) : Code σ ε α :=
  ExceptT.mk fun s => f s

@[simp] theorem outcome_mk (f : σ → Except ε α × σ) (s : σ) :
    outcome (Code.mk f) s = f s := rfl

@[simp] theorem outcome_pure (a : α) (s : σ) :
    outcome (pure a : Code σ ε α) s = (.ok a, s) := rfl

@[simp] theorem outcome_throw (e : ε) (s : σ) :
    outcome (throw e : Code σ ε α) s = (.error e, s) := rfl

@[simp] theorem outcome_lift (r : Except ε α) (s : σ) :
    outcome (liftM r : Code σ ε α) s = (r, s) := rfl

@[simp] theorem outcome_get (s : σ) : outcome (get : Code σ ε σ) s = (.ok s, s) := rfl

theorem outcome_bind_ok {m : Code σ ε α} {f : α → Code σ ε γ} {s s' : σ} {a : α}
    (h : outcome m s = (.ok a, s')) : outcome (m >>= f) s = outcome (f a) s' := by
  have hrun : StateT.run (ExceptT.run m) s = (.ok a, s') := h
  simp only [outcome, ExceptT.run_bind, StateT.run_bind, hrun]
  rfl

theorem outcome_bind_error {m : Code σ ε α} {f : α → Code σ ε γ} {s s' : σ} {e : ε}
    (h : outcome m s = (.error e, s')) : outcome (m >>= f) s = (.error e, s') := by
  have hrun : StateT.run (ExceptT.run m) s = (.error e, s') := h
  simp only [outcome, ExceptT.run_bind, StateT.run_bind, hrun]
  rfl

theorem outcome_bind (m : Code σ ε α) (f : α → Code σ ε γ) (s : σ) :
    outcome (m >>= f) s =
      match outcome m s with
      | (.ok a, s') => outcome (f a) s'
      | (.error e, s') => (.error e, s') := by
  cases hm : outcome m s with
  | mk r s' =>
      cases r with
      | error e => exact outcome_bind_error hm
      | ok a => exact outcome_bind_ok hm

/-- The parts of a program that returned. -/
theorem exists_of_bind {m : Code σ ε α} {f : α → Code σ ε γ} {s s'' : σ} {b : γ}
    (h : outcome (m >>= f) s = (.ok b, s'')) :
    ∃ a s', outcome m s = (.ok a, s') ∧ outcome (f a) s' = (.ok b, s'') := by
  cases hm : outcome m s with
  | mk r s' =>
      cases r with
      | error e =>
          rw [outcome_bind_error hm] at h
          cases h
      | ok a =>
          rw [outcome_bind_ok hm] at h
          exact ⟨a, s', rfl, h⟩

theorem outcome_tryCatch (m : Code σ ε α) (h : ε → Code σ ε α) (s : σ) :
    outcome (tryCatch m h) s =
      match outcome m s with
      | (.ok a, s') => (.ok a, s')
      | (.error e, s') => outcome (h e) s' := by
  simp only [outcome, tryCatch, tryCatchThe, MonadExceptOf.tryCatch, ExceptT.tryCatch,
    ExceptT.run_mk, StateT.run_bind]
  cases hm : StateT.run (ExceptT.run m) s with
  | mk r s' =>
      have hrun : StateT.run (m := Id) m s = (r, s') := hm
      rw [hrun]
      cases r with
      | error e => rfl
      | ok a => rfl

@[simp] theorem outcome_modify (f : σ → σ) (s : σ) :
    outcome (modify f : Code σ ε Unit) s = (.ok (), f s) := rfl

@[simp] theorem ok_bind (a : α) (f : α → Except ε β) : (Except.ok a >>= f) = f a := rfl

@[simp] theorem error_bind (e : ε) (f : α → Except ε β) :
    ((Except.error e : Except ε α) >>= f) = .error e := rfl

theorem bind_eq_ok {r : Except ε α} {f : α → Except ε β} {b : β} :
    (r >>= f) = .ok b ↔ ∃ a, r = .ok a ∧ f a = .ok b := by
  cases r with
  | error e => simp
  | ok a => simp

/-- The results of a loop that has not thrown. -/
theorem mapM_eq_ok {f : α → Except ε β} {xs : List α} {ys : List β} :
    xs.mapM f = .ok ys ↔ List.Forall₂ (fun x y => f x = .ok y) xs ys := by
  induction xs generalizing ys with
  | nil =>
      constructor
      · intro h
        cases h
        exact .nil
      · intro h
        cases h
        rfl
  | cons x xs ih =>
      rw [List.mapM_cons, bind_eq_ok]
      constructor
      · rintro ⟨y, hy, h⟩
        obtain ⟨ys', hys', h⟩ := bind_eq_ok.mp h
        cases h
        exact .cons hy (ih.mp hys')
      · intro h
        cases h with
        | cons hy hys => exact ⟨_, hy, bind_eq_ok.mpr ⟨_, ih.mpr hys, rfl⟩⟩

theorem mapM_congr {f g : α → Except ε β} {xs : List α} (h : ∀ x ∈ xs, f x = g x) :
    xs.mapM f = xs.mapM g := by
  induction xs with
  | nil => rfl
  | cons x xs ih =>
      rw [List.forall_mem_cons] at h
      rw [List.mapM_cons, List.mapM_cons, h.1, ih h.2]

/-- The exceptions of a loop in another type. -/
theorem mapM_mapError {ε' : Type} (f : α → Except ε β) (g : ε → ε') (xs : List α) :
    xs.mapM (fun a => (f a).mapError g) = (xs.mapM f).mapError g := by
  induction xs with
  | nil => rfl
  | cons a xs ih =>
      rw [List.mapM_cons, List.mapM_cons, ih]
      cases f a with
      | error e => rfl
      | ok b =>
          cases xs.mapM f with
          | error e => rfl
          | ok bs => rfl

theorem exists_mapM {f : α → Except ε β} {xs : List α} (h : ∀ x ∈ xs, ∃ y, f x = .ok y) :
    ∃ ys, xs.mapM f = .ok ys := by
  induction xs with
  | nil => exact ⟨[], rfl⟩
  | cons x xs ih =>
      obtain ⟨y, hy⟩ := h x List.mem_cons_self
      obtain ⟨ys, hys⟩ := ih fun x' hx' => h x' (List.mem_cons_of_mem x hx')
      exact ⟨y :: ys, mapM_eq_ok.mpr (.cons hy (mapM_eq_ok.mp hys))⟩

theorem exists_of_mapM {f : α → Except ε β} {xs : List α} {ys : List β}
    (h : xs.mapM f = .ok ys) {x : α} (hx : x ∈ xs) : ∃ y ∈ ys, f x = .ok y := by
  have hall := mapM_eq_ok.mp h
  clear h
  induction hall with
  | nil => cases hx
  | @cons x' y' xs ys hxy _ ih =>
      rcases List.mem_cons.mp hx with rfl | hx
      · exact ⟨y', List.mem_cons_self, hxy⟩
      · obtain ⟨y, hy, hfx⟩ := ih hx
        exact ⟨y, List.mem_cons_of_mem y' hy, hfx⟩

theorem exists_mem_of_mapM {f : α → Except ε β} {xs : List α} {ys : List β}
    (h : xs.mapM f = .ok ys) {y : β} (hy : y ∈ ys) : ∃ x ∈ xs, f x = .ok y := by
  have hall := mapM_eq_ok.mp h
  clear h
  induction hall with
  | nil => cases hy
  | @cons x' y' xs ys hxy _ ih =>
      rcases List.mem_cons.mp hy with rfl | hy
      · exact ⟨x', List.mem_cons_self, hxy⟩
      · obtain ⟨x, hx, hfx⟩ := ih hy
        exact ⟨x, List.mem_cons_of_mem x' hx, hfx⟩

/-- The outcome `r` of a program meets the abstract result `o` and leaves a state with the
property `P`. -/
def Meets (r : Except ε α × σ) (o : Option β) (P : σ → Prop) (Q : α → β → σ → Prop) :
    Prop :=
  P r.2 ∧
    match o with
    | some b => ∃ a, r.1 = .ok a ∧ Q a b r.2
    | none => ∃ e, r.1 = .error e

variable {o : Option β} {P : σ → Prop} {Q : α → β → σ → Prop} {s s' : σ}

theorem meets_ok {r : Except ε α × σ} {a : α} {b : β} (hr : r = (.ok a, s)) (hP : P s)
    (hQ : Q a b s) : Meets r (some b) P Q := by
  subst hr
  exact ⟨hP, a, rfl, hQ⟩

theorem meets_error {r : Except ε α × σ} {e : ε} (hr : r = (.error e, s)) (hP : P s) :
    Meets r (none : Option β) P Q := by
  subst hr
  exact ⟨hP, e, rfl⟩

theorem meets_pure {a : α} {b : β} (hP : P s) (hQ : Q a b s) :
    Meets (outcome (pure a : Code σ ε α) s) (some b) P Q :=
  meets_ok rfl hP hQ

theorem Meets.mono {r : Except ε α × σ} {P' : σ → Prop} {Q' : α → β → σ → Prop}
    (h : Meets r o P Q) (hP : ∀ s, P s → P' s)
    (hQ : ∀ a b s, o = some b → P s → Q a b s → Q' a b s) : Meets r o P' Q' := by
  cases o with
  | none => exact ⟨hP _ h.1, h.2⟩
  | some b =>
      obtain ⟨hs, a, ha, hq⟩ := h
      exact ⟨hP _ hs, a, ha, hQ a b _ rfl hs hq⟩

/-- How a program ends that meets a result. -/
theorem Meets.cases {r : Except ε α × σ} (h : Meets r o P Q) :
    (∃ e s, r = (.error e, s) ∧ o = none ∧ P s) ∨
      ∃ a b s, r = (.ok a, s) ∧ o = some b ∧ P s ∧ Q a b s := by
  obtain ⟨r, s⟩ := r
  cases o with
  | none =>
      obtain ⟨hs, e, rfl⟩ := h
      exact Or.inl ⟨e, s, rfl, rfl, hs⟩
  | some b =>
      obtain ⟨hs, a, rfl, hq⟩ := h
      exact Or.inr ⟨a, b, s, rfl, rfl, hs, hq⟩

/-- What is known when the program returned. -/
theorem Meets.of_ok {r : Except ε α × σ} (h : Meets r o P Q) {a : α} (hr : r = (.ok a, s)) :
    ∃ b, o = some b ∧ P s ∧ Q a b s := by
  rcases h.cases with ⟨e, s', hm, -, -⟩ | ⟨a', b, s', hm, ho, hs, hq⟩
  · rw [hr] at hm
    cases hm
  · rw [hr] at hm
    cases hm
    exact ⟨b, ho, hs, hq⟩

/-- The sequencing rule. -/
theorem Meets.bind {m : Code σ ε α} {f : α → Code σ ε γ} {g : β → Option δ}
    {R : γ → δ → σ → Prop} (h : Meets (outcome m s) o P Q)
    (hf : ∀ a b s', o = some b → P s' → Q a b s' → Meets (outcome (f a) s') (g b) P R) :
    Meets (outcome (m >>= f) s) (o.bind g) P R := by
  rcases h.cases with ⟨e, s', hm, rfl, hs⟩ | ⟨a, b, s', hm, rfl, hs, hq⟩
  · exact meets_error (outcome_bind_error hm) hs
  · rw [outcome_bind_ok hm]
    exact hf a b s' rfl hs hq

/-- A step that always returns. -/
theorem Meets.step {m : Code σ ε α} {f : α → Code σ ε γ} {o : Option δ}
    {R : γ → δ → σ → Prop} {a : α} (hm : outcome m s = (.ok a, s'))
    (h : Meets (outcome (f a) s') o P R) : Meets (outcome (m >>= f) s) o P R := by
  rw [outcome_bind_ok hm]
  exact h

/-- A step that always throws. -/
theorem Meets.fail {m : Code σ ε α} {f : α → Code σ ε γ} {R : γ → δ → σ → Prop} {e : ε}
    (hm : outcome m s = (.error e, s')) (h : P s') :
    Meets (outcome (m >>= f) s) (none : Option δ) P R :=
  meets_error (outcome_bind_error hm) h

/-- The abstract value of an outcome without a state. -/
def value? : Except ε α → Option α
  | .ok a => some a
  | .error _ => none

theorem value?_eq_some {r : Except ε α} {a : α} : value? r = some a ↔ r = .ok a := by
  cases r with
  | error e => simp [value?]
  | ok b => simp [value?]

theorem value?_bind (r : Except ε α) (f : α → Except ε β) :
    value? (r >>= f) = (value? r).bind fun a => value? (f a) := by
  cases r with
  | error e => rfl
  | ok a => rfl

/-- A check that passes. -/
def accepts : Except ε Bool → Option Unit
  | .ok true => some ()
  | _ => none

theorem accepts_eq_some {r : Except ε Bool} {u : Unit} :
    accepts r = some u ↔ r = .ok true := by
  cases r with
  | error e => simp [accepts]
  | ok b => cases b <;> simp [accepts]

/-- A call of something that has no state. -/
theorem Meets.bind_lift {r : Except ε α} {f : α → Code σ ε γ} {g : α → Option δ}
    {R : γ → δ → σ → Prop} (hP : P s)
    (hf : ∀ a, r = .ok a → Meets (outcome (f a) s) (g a) P R) :
    Meets (outcome ((liftM r : Code σ ε α) >>= f) s) ((value? r).bind g) P R := by
  cases r with
  | error e => exact Meets.fail (outcome_lift _ s) hP
  | ok a => exact Meets.step (outcome_lift _ s) (hf a rfl)

section Keeps

/-- The program keeps the property `P` of the state. -/
def Keeps (P : σ → Prop) (m : Code σ ε α) : Prop :=
  ∀ s, P s → P (outcome m s).2

theorem keeps_pure (a : α) : Keeps P (pure a : Code σ ε α) :=
  fun _ h => h

theorem keeps_throw (e : ε) : Keeps P (throw e : Code σ ε α) :=
  fun _ h => h

theorem keeps_lift (r : Except ε α) : Keeps P (liftM r : Code σ ε α) :=
  fun _ h => h

/-- What is left of one run, if the second part may use how the first part ended. -/
theorem kept_bind {m : Code σ ε α} {f : α → Code σ ε γ} (hm : P (outcome m s).2)
    (hf : ∀ a s', outcome m s = (.ok a, s') → P (outcome (f a) s').2) :
    P (outcome (m >>= f) s).2 := by
  cases houtcome : outcome m s with
  | mk r s' =>
      cases r with
      | error e =>
          rw [outcome_bind_error houtcome]
          rwa [houtcome] at hm
      | ok a =>
          rw [outcome_bind_ok houtcome]
          exact hf a s' houtcome

/-- What follows may use how the first part ended. -/
theorem Keeps.bind_outcome {m : Code σ ε α} {f : α → Code σ ε γ} (hm : Keeps P m)
    (hf : ∀ s a s', P s → outcome m s = (.ok a, s') → P s' → P (outcome (f a) s').2) :
    Keeps P (m >>= f) := by
  intro s hs
  have hkept := hm s hs
  refine kept_bind hkept fun a s' houtcome => ?_
  rw [houtcome] at hkept
  exact hf s a s' hs houtcome hkept

theorem Keeps.bind {m : Code σ ε α} {f : α → Code σ ε γ} (hm : Keeps P m)
    (hf : ∀ a, Keeps P (f a)) : Keeps P (m >>= f) :=
  hm.bind_outcome fun _ a s' _ _ hs' => hf a s' hs'

theorem Keeps.tryCatch {m : Code σ ε α} {handler : ε → Code σ ε α}
    (hm : Keeps P m) (hh : ∀ e, Keeps P (handler e)) : Keeps P (tryCatch m handler) := by
  intro s hs
  have hkept := hm s hs
  rw [outcome_tryCatch]
  cases hr : outcome m s with
  | mk r s' =>
      rw [hr] at hkept
      cases r with
      | ok a => exact hkept
      | error e => exact hh e s' hkept

end Keeps

end Refinement
