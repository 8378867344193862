import Gearbox.Interleaving.Along

/-!
# Runs that are watched

Somebody reads the store now and then during a run, and does nothing to it. If every step of the
run moves the store along a preorder, then so do the stores that were read, in their order.
-/

namespace Interleaving

section Watched

variable {ι S X : Type} {Y : X → Type} {L Op Res : Type} [DecidableEq ι]

/-- A run with the stores that were read during it. -/
inductive Watched (body : Op → L → Prog S Y (Res × L)) (c₀ : Config ι S Y L Op Res) :
    List (Label ι S Y L Op Res) → List S → Config ι S Y L Op Res → Prop
  | nil : Watched body c₀ [] [] c₀
  | step {tr : List (Label ι S Y L Op Res)} {seen : List S} {c c' : Config ι S Y L Op Res}
      {l : Label ι S Y L Op Res} (h : Watched body c₀ tr seen c) (hs : Step body c l c') :
      Watched body c₀ (tr ++ [l]) seen c'
  | look {tr : List (Label ι S Y L Op Res)} {seen : List S} {c : Config ι S Y L Op Res}
      (h : Watched body c₀ tr seen c) : Watched body c₀ tr (seen ++ [c.store]) c

variable {body : Op → L → Prog S Y (Res × L)} {c₀ c : Config ι S Y L Op Res}
  {tr : List (Label ι S Y L Op Res)} {seen : List S} {R : S → S → Prop} {I : S → Prop}
  {D : Op → L → S → Prop}

theorem Watched.run (h : Watched body c₀ tr seen c) : Run body c₀ tr c := by
  induction h with
  | nil => exact .nil
  | step _ hs ih => exact .snoc ih hs
  | look _ ih => exact ih

/-- Nothing is read in a run. -/
theorem Watched.of_run {tr' : List (Label ι S Y L Op Res)} {c' : Config ι S Y L Op Res}
    (h : Watched body c₀ tr seen c) (h' : Run body c tr' c') :
    Watched body c₀ (tr ++ tr') seen c' := by
  induction h' with
  | nil =>
      rw [List.append_nil]
      exact h
  | snoc _ hs ih =>
      rw [← List.append_assoc]
      exact ih.step hs

/-- The rule for runs that are watched: the stores lie along `R` between the first and the last
one. -/
theorem Watched.along (hrefl : ∀ s, R s s)
    (htrans : ∀ s₁ s₂ s₃, R s₁ s₂ → R s₂ s₃ → R s₁ s₃) (hkeep : ∀ s s', R s s' → I s → I s')
    (hbody : ∀ op l s, I s → D op l s → (body op l).along R (fun _ _ => True) s)
    (hI : I c₀.store) (h₀ : c₀.AtRest) (h : Watched body c₀ tr seen c)
    (hD : Calls body D c₀ tr) :
    (∀ s ∈ seen, R c₀.store s ∧ R s c.store) ∧ seen.Pairwise R := by
  induction h with
  | nil => exact ⟨List.forall_mem_nil _, .nil⟩
  | step h hs ih =>
      have hstep := h.run.along_step hrefl htrans hkeep hbody hI h₀ hD.append_left hs
      obtain ⟨hbetween, hpairwise⟩ := ih hD.append_left
      exact ⟨fun s hs => ⟨(hbetween s hs).1, htrans _ _ _ (hbetween s hs).2 hstep⟩, hpairwise⟩
  | look h ih =>
      obtain ⟨hbetween, hpairwise⟩ := ih hD
      have hstore := (h.run.along hrefl htrans hkeep hbody hI h₀ hD).1
      constructor
      · intro s hs
        rcases List.mem_append.mp hs with hs | hs
        · exact hbetween s hs
        · rw [List.mem_singleton.mp hs]
          exact ⟨hstore, hrefl _⟩
      · rw [List.pairwise_append]
        refine ⟨hpairwise, List.pairwise_singleton R _, fun s hs s' hs' => ?_⟩
        rw [List.mem_singleton.mp hs']
        exact (hbetween s hs).2

end Watched

end Interleaving
