import Gearbox.Refinement.Meets

/-!
# Loops that try again

A loop of the form `while( true ) { try { ...; return; } catch( ... ) {} }` runs its body
until it returns. `retry` is such a loop with a bound on the number of its rounds, and
`late` is what it ends with when the bound is reached. A program with loops is therefore a
family of programs, one for each bound. `Halts` says how the program ends without a bound:
the result is the same for all bounds that are large enough, and it is not `late`.

The rules follow the rounds of a loop and the sequencing of two programs. A loop does not
end if its rounds fail from every state with a property that they keep
(`not_halts_retry`).
-/

namespace Refinement

variable {σ ε α β : Type}

/-- At most `n` rounds of a loop that runs `m` until it returns, or until it throws
something that is not caught. -/
def retry (caught : ε → Bool) (late : ε) (m : Code σ ε α) : ℕ → Code σ ε α
  | 0 => throw late
  | n + 1 => tryCatch m fun e => if caught e then retry caught late m n else throw e

/-- The family `p` of programs ends with the result `r` in the state `s'`. -/
def Halts (late : ε) (p : ℕ → Code σ ε α) (s : σ) (r : Except ε α) (s' : σ) : Prop :=
  r ≠ .error late ∧ ∃ bound, ∀ n, bound ≤ n → outcome (p n) s = (r, s')

variable {caught : ε → Bool} {late : ε} {p : ℕ → Code σ ε α} {m : Code σ ε α} {s s₁ s' : σ}
  {r : Except ε α}

theorem Halts.unique {r' : Except ε α} {s'' : σ} (h : Halts late p s r s')
    (h' : Halts late p s r' s'') : r = r' ∧ s' = s'' := by
  obtain ⟨-, bound, hbound⟩ := h
  obtain ⟨-, bound', hbound'⟩ := h'
  have heq := hbound (max bound bound') (Nat.le_max_left _ _)
  rw [hbound' (max bound bound') (Nat.le_max_right _ _), Prod.mk.injEq] at heq
  exact ⟨heq.1.symm, heq.2.symm⟩

/-- A program without loops. -/
theorem halts_of_outcome (h : ∀ n, outcome (p n) s = (r, s')) (hr : r ≠ .error late) :
    Halts late p s r s' :=
  ⟨hr, 0, fun n _ => h n⟩

theorem halts_pure (a : α) : Halts late (fun _ => (pure a : Code σ ε α)) s (.ok a) s :=
  halts_of_outcome (fun _ => rfl) nofun

/-- The same program from another state. -/
theorem halts_congr {q : ℕ → Code σ ε α} (h : ∀ n, outcome (p n) s = outcome (q n) s₁) :
    Halts late p s r s' ↔ Halts late q s₁ r s' := by
  simp only [Halts, h]

/-- A program whose rest has a smaller bound. -/
theorem halts_succ {q : ℕ → Code σ ε α} (k : ℕ)
    (h : ∀ n, k ≤ n → outcome (p (n + 1)) s = outcome (q n) s₁) :
    Halts late p s r s' ↔ Halts late q s₁ r s' := by
  constructor
  · rintro ⟨hr, bound, hbound⟩
    refine ⟨hr, max bound k, fun n hn => ?_⟩
    rw [← h n (Nat.le_trans (Nat.le_max_right _ _) hn)]
    exact hbound (n + 1)
      (Nat.le_trans (Nat.le_trans (Nat.le_max_left _ _) hn) (Nat.le_succ n))
  · rintro ⟨hr, bound, hbound⟩
    refine ⟨hr, max bound k + 1, fun n hn => ?_⟩
    obtain ⟨n, rfl⟩ := Nat.exists_eq_add_of_le' (Nat.le_trans (Nat.le_add_left 1 _) hn)
    have hn' : max bound k ≤ n := Nat.le_of_succ_le_succ hn
    rw [h n (Nat.le_trans (Nat.le_max_right _ _) hn')]
    exact hbound n (Nat.le_trans (Nat.le_max_left _ _) hn')

/-- The sequencing rule. -/
theorem Halts.bind_iff {a : α} {q : ℕ → α → Code σ ε β} {r' : Except ε β}
    (h : Halts late p s (.ok a) s₁) :
    Halts late (fun n => p n >>= q n) s r' s' ↔ Halts late (fun n => q n a) s₁ r' s' := by
  obtain ⟨-, bound, hbound⟩ := h
  constructor
  · rintro ⟨hr, bound', hbound'⟩
    refine ⟨hr, max bound bound', fun n hn => ?_⟩
    rw [← outcome_bind_ok (hbound n (Nat.le_trans (Nat.le_max_left _ _) hn))]
    exact hbound' n (Nat.le_trans (Nat.le_max_right _ _) hn)
  · rintro ⟨hr, bound', hbound'⟩
    refine ⟨hr, max bound bound', fun n hn => ?_⟩
    rw [outcome_bind_ok (hbound n (Nat.le_trans (Nat.le_max_left _ _) hn))]
    exact hbound' n (Nat.le_trans (Nat.le_max_right _ _) hn)

/-- A program that throws has no rest. -/
theorem Halts.bind_error {e : ε} {q : ℕ → α → Code σ ε β}
    (h : Halts late p s (.error e) s') : Halts late (fun n => p n >>= q n) s (.error e) s' := by
  obtain ⟨hr, bound, hbound⟩ := h
  refine ⟨fun hlate => hr ?_, bound, fun n hn => outcome_bind_error (hbound n hn)⟩
  cases hlate
  rfl

/-- A program that returns has nothing to catch. -/
theorem Halts.tryCatch {a : α} (h : Halts late p s (.ok a) s') (handler : ℕ → ε → Code σ ε α) :
    Halts late (fun n => tryCatch (p n) (handler n)) s (.ok a) s' := by
  obtain ⟨hr, bound, hbound⟩ := h
  refine ⟨hr, bound, fun n hn => ?_⟩
  rw [outcome_tryCatch, hbound n hn]

section Retry

theorem outcome_retry_succ (n : ℕ) :
    outcome (retry caught late m (n + 1)) s =
      match outcome m s with
      | (.ok a, s') => (.ok a, s')
      | (.error e, s') =>
          if caught e then outcome (retry caught late m n) s' else (.error e, s') := by
  rw [retry, outcome_tryCatch]
  cases outcome m s with
  | mk r s' =>
      cases r with
      | ok a => rfl
      | error e =>
          dsimp only
          split
          · rfl
          · rfl

/-- The last round. -/
theorem halts_retry_ok {a : α} (h : outcome m s = (.ok a, s')) :
    Halts late (retry caught late m) s (.ok a) s' := by
  refine ⟨nofun, 1, fun n hn => ?_⟩
  obtain ⟨n, rfl⟩ := Nat.exists_eq_add_of_le' hn
  rw [outcome_retry_succ, h]

/-- A round that is followed by another one. -/
theorem halts_retry_caught {e : ε} (h : outcome m s = (.error e, s₁))
    (hcaught : caught e = true) :
    Halts late (retry caught late m) s r s' ↔ Halts late (retry caught late m) s₁ r s' := by
  have hround : ∀ n, outcome (retry caught late m (n + 1)) s =
      outcome (retry caught late m n) s₁ := by
    intro n
    rw [outcome_retry_succ, h]
    exact if_pos hcaught
  constructor
  · rintro ⟨hr, bound, hbound⟩
    refine ⟨hr, bound, fun n hn => ?_⟩
    rw [← hround]
    exact hbound (n + 1) (Nat.le_trans hn (Nat.le_succ n))
  · rintro ⟨hr, bound, hbound⟩
    refine ⟨hr, bound + 1, fun n hn => ?_⟩
    obtain ⟨n, rfl⟩ := Nat.exists_eq_add_of_le' (Nat.le_trans (Nat.le_add_left 1 bound) hn)
    rw [hround]
    exact hbound n (Nat.le_of_succ_le_succ hn)

/-- A loop whose rounds keep failing reaches every bound. -/
theorem outcome_retry_late {P : σ → Prop}
    (hround : ∀ s, P s → ∃ e s', outcome m s = (.error e, s') ∧ caught e = true ∧ P s')
    (hs : P s) (n : ℕ) : (outcome (retry caught late m n) s).1 = .error late := by
  induction n generalizing s with
  | zero => rfl
  | succ n ih =>
      obtain ⟨e, s₁, hm, hcaught, hs₁⟩ := hround s hs
      rw [outcome_retry_succ, hm]
      dsimp only
      rw [if_pos hcaught]
      exact ih hs₁

/-- So it does not end. -/
theorem not_halts_retry {P : σ → Prop}
    (hround : ∀ s, P s → ∃ e s', outcome m s = (.error e, s') ∧ caught e = true ∧ P s')
    (hs : P s) : ¬ Halts late (retry caught late m) s r s' := by
  rintro ⟨hr, bound, hbound⟩
  have hend : (outcome (retry caught late m bound) s).1 = .error late :=
    outcome_retry_late hround hs bound
  rw [hbound bound (Nat.le_refl bound)] at hend
  exact hr hend

end Retry

end Refinement
