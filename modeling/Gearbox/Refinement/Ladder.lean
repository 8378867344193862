import Gearbox.Refinement.Meets

/-!
# Ladders

A state stands on one of the levels of a ladder. A step up leads from a level to the next one, and
a step down leads back. A program that takes one step after the other climbs from a level to any
higher one, and descends to any lower one. If the lowest level cannot be left then a descent below
it stops there.
-/

namespace Refinement

variable {σ ε : Type}

/-- One step after the other, up to the first one that throws. -/
def each (step : ℕ → Code σ ε Unit) : List ℕ → Code σ ε Unit
  | [] => pure ()
  | v :: vs => do
    step v
    each step vs

section Each

variable {step : ℕ → Code σ ε Unit} {s s₁ : σ} {v : ℕ} {vs ws : List ℕ}

theorem outcome_each_cons (h : outcome (step v) s = (.ok (), s₁)) (vs : List ℕ) :
    outcome (each step (v :: vs)) s = outcome (each step vs) s₁ := by
  rw [each, outcome_bind_ok h]

theorem outcome_each_error {e : ε} (h : outcome (step v) s = (.error e, s₁)) (vs : List ℕ) :
    outcome (each step (v :: vs)) s = (.error e, s₁) := by
  rw [each, outcome_bind_error h]

theorem outcome_each_append (h : outcome (each step vs) s = (.ok (), s₁)) (ws : List ℕ) :
    outcome (each step (vs ++ ws)) s = outcome (each step ws) s₁ := by
  induction vs generalizing s with
  | nil =>
      cases h
      rfl
  | cons v vs ih =>
      obtain ⟨⟨⟩, s', hv, hvs⟩ := exists_of_bind h
      rw [List.cons_append, outcome_each_cons hv, ih hvs]

end Each

section Ladder

variable {At : ℕ → σ → Prop} {up down : ℕ → Code σ ε Unit} {low high : ℕ}

/-- Every step up leads to the next level. -/
def Climbs (At : ℕ → σ → Prop) (up : ℕ → Code σ ε Unit) (low high : ℕ) : Prop :=
  ∀ v s, low ≤ v → v < high → At v s → ∃ s', outcome (up (v + 1)) s = (.ok (), s') ∧ At (v + 1) s'

/-- Every step down leads to the level below. -/
def Descends (At : ℕ → σ → Prop) (down : ℕ → Code σ ε Unit) (low high : ℕ) : Prop :=
  ∀ v s, low ≤ v → v < high → At (v + 1) s →
    ∃ s', outcome (down (v + 1)) s = (.ok (), s') ∧ At v s'

/-- The level cannot be left. -/
def Bottom (At : ℕ → σ → Prop) (down : ℕ → Code σ ε Unit) (low : ℕ) : Prop :=
  ∀ s, At low s → ∃ e s', outcome (down low) s = (.error e, s') ∧ At low s'

theorem Climbs.each (h : Climbs At up low high) {a n : ℕ} (ha : low ≤ a) (hn : a + n ≤ high)
    {s : σ} (hs : At a s) :
    ∃ s', outcome (Refinement.each up (List.range' (a + 1) n)) s = (.ok (), s') ∧
      At (a + n) s' := by
  induction n generalizing a s with
  | zero => exact ⟨s, rfl, hs⟩
  | succ n ih =>
      obtain ⟨s₁, hup, hs₁⟩ := h a s ha (by omega) hs
      obtain ⟨s', hrest, hs'⟩ := ih (Nat.le_succ_of_le ha) (by omega) hs₁
      refine ⟨s', ?_, ?_⟩
      · rw [List.range'_succ, outcome_each_cons hup]
        exact hrest
      · rwa [Nat.succ_add_eq_add_succ] at hs'

theorem Descends.each (h : Descends At down low high) {a n : ℕ} (ha : low ≤ a)
    (hn : a + n ≤ high) {s : σ} (hs : At (a + n) s) :
    ∃ s', outcome (Refinement.each down (List.range' (a + 1) n).reverse) s = (.ok (), s') ∧
      At a s' := by
  induction n generalizing s with
  | zero => exact ⟨s, rfl, hs⟩
  | succ n ih =>
      obtain ⟨s₁, hdown, hs₁⟩ := h (a + n) s (Nat.le_add_right_of_le ha) (by omega) hs
      obtain ⟨s', hrest, hs'⟩ := ih (by omega) hs₁
      refine ⟨s', ?_, hs'⟩
      have hlast : a + 1 + 1 * n = a + n + 1 := by omega
      rw [List.range'_concat, List.reverse_append, List.reverse_singleton,
        List.singleton_append, hlast, outcome_each_cons hdown]
      exact hrest

/-- The levels above `c` and up to `a`, where `low` is one of them. -/
theorem range'_eq_append_cons {c low a n : ℕ} (hc : c < low) (ha : low ≤ a) (hn : a = c + n) :
    List.range' (c + 1) n =
      List.range' (c + 1) (low - c - 1) ++ low :: List.range' (low + 1) (a - low) := by
  obtain ⟨k, rfl⟩ := Nat.exists_eq_add_of_le (Nat.succ_le_of_lt hc)
  obtain ⟨m, rfl⟩ := Nat.exists_eq_add_of_le ha
  have hk : c + 1 + k - c - 1 = k := by omega
  have hm : n = k + (m + 1) := by omega
  rw [Nat.add_sub_cancel_left, hk, ← List.range'_succ, hm, ← List.range'_append, Nat.one_mul]

/-- A descent below the bottom stops there. -/
theorem Descends.each_bottom (h : Descends At down low high) (hbottom : Bottom At down low)
    {a n c : ℕ} (hc : c < low) (ha : low ≤ a) (hn : a = c + n) (hhigh : a ≤ high) {s : σ}
    (hs : At a s) :
    ∃ e s', outcome (Refinement.each down (List.range' (c + 1) n).reverse) s = (.error e, s') ∧
      At low s' := by
  have hlevel : low + (a - low) = a := Nat.add_sub_cancel' ha
  obtain ⟨s₁, hdescent, hs₁⟩ := h.each (Nat.le_refl low) (n := a - low)
    (hlevel.symm ▸ hhigh) (s := s) (hlevel.symm ▸ hs)
  obtain ⟨e, s', hblocked, hs'⟩ := hbottom s₁ hs₁
  refine ⟨e, s', ?_, hs'⟩
  rw [range'_eq_append_cons hc ha hn, List.reverse_append, List.reverse_cons, List.append_assoc,
    outcome_each_append hdescent, List.singleton_append, outcome_each_error hblocked]

end Ladder

section Commands

/-- One command after the other. -/
def series : List (Code σ ε Unit) → Code σ ε Unit
  | [] => pure ()
  | m :: ms => do
    m
    series ms

variable {s s₁ : σ} {ms ms' : List (Code σ ε Unit)}

variable {α : Type} {first second : ℕ → α}

end Commands

end Refinement
