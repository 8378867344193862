import Gearbox.Interleaving.System

/-!
# Clients that move the store along a preorder

Where all clients keep the same facts about the store, what a client relies on and what
it guarantees are one relation: a preorder `R` that every transaction moves the store
along. Then no ghost state is needed. `along R Q s` is the weakest precondition of a
program for it: when the program starts at `s` and the others move the store along `R`
before each of its actions, then so does each of its transactions, and `Q` holds of the
result and the store of its last action.

`Run.along` is the rule for whole runs: the programs may assume a property `I` of the
store that `R` keeps, and the calls may be restricted by a condition `D` on the
operation, the local state and the store at the time of the call.
-/

namespace Interleaving

namespace Prog

variable {S X : Type} {Y : X → Type} {α β : Type}

/-- The weakest precondition of a program whose transactions move the store along `R`,
among others that do so too. -/
def along (R : S → S → Prop) : Prog S Y α → (α → S → Prop) → S → Prop
  | ret a, Q, s => Q a s
  | read k, Q, s => ∀ s', R s s' → (k s').along R Q s'
  | update f k, Q, s => ∀ s', R s s' → R s' (f s') ∧ (k s').along R Q (f s')
  | call _ k, Q, s => ∀ y, (k y).along R Q s

variable {R : S → S → Prop} {Q Q' : α → S → Prop} {s s' : S}

theorem along_mono {p : Prog S Y α} (hQ : ∀ a s, Q a s → Q' a s) (h : p.along R Q s) :
    p.along R Q' s := by
  induction p generalizing s with
  | ret a => exact hQ a s h
  | read k ih => exact fun s' hs => ih s' (h s' hs)
  | update f k ih => exact fun s' hs => ⟨(h s' hs).1, ih s' (h s' hs).2⟩
  | call x k ih => exact fun y => ih y (h y)

/-- The sequencing rule. -/
theorem along_bind {p : Prog S Y α} {q : α → Prog S Y β} {Q : β → S → Prop}
    (h : p.along R (fun a s => (q a).along R Q s) s) : (p >>= q).along R Q s := by
  induction p generalizing s with
  | ret a => exact h
  | read k ih => exact fun s' hs => ih s' (h s' hs)
  | update f k ih => exact fun s' hs => ⟨(h s' hs).1, ih s' (h s' hs).2⟩
  | call x k ih => exact fun y => ih y (h y)

/-- What a program needs is not lost while the others move the store. -/
theorem along_of_le (htrans : ∀ s₁ s₂ s₃, R s₁ s₂ → R s₂ s₃ → R s₁ s₃) {p : Prog S Y α}
    (hs : R s s') (h : p.along R (fun _ _ => True) s) :
    p.along R (fun _ _ => True) s' := by
  induction p with
  | ret a => trivial
  | read k ih => exact fun s'' hs' => h s'' (htrans _ _ _ hs hs')
  | update f k ih => exact fun s'' hs' => h s'' (htrans _ _ _ hs hs')
  | call x k ih => exact fun y => ih y (h y)

/-- One action moves the store along `R`, and the rest of the program goes on there. -/
theorem along_act (hrefl : ∀ s, R s s) {p q : Prog S Y α} {e : Event S Y}
    (h : p.along R Q s) (ha : Act p s e q) : R s (e.after s) ∧ q.along R Q (e.after s) := by
  cases ha with
  | read k s => exact ⟨hrefl s, h s (hrefl s)⟩
  | update f k s => exact h s (hrefl s)
  | call x k s y => exact ⟨hrefl s, h y⟩

end Prog

section Runs

variable {ι S X : Type} {Y : X → Type} {L Op Res : Type} [DecidableEq ι]
  {body : Op → L → Prog S Y (Res × L)} {c₀ c : Config ι S Y L Op Res}
  {tr : List (Label ι S Y L Op Res)} {R : S → S → Prop} {I : S → Prop}
  {D : Op → L → S → Prop}

/-- Every call of the run meets `D` of the operation, the local state it starts from, and
the store at that time. -/
def Calls (body : Op → L → Prog S Y (Res × L)) (D : Op → L → S → Prop)
    (c₀ : Config ι S Y L Op Res) (tr : List (Label ι S Y L Op Res)) : Prop :=
  ∀ pre i op post c₁ l, tr = pre ++ .call i op :: post → Run body c₀ pre c₁ →
    c₁.client i = .idle l → D op l c₁.store

theorem Calls.append_left {tr' : List (Label ι S Y L Op Res)}
    (h : Calls body D c₀ (tr ++ tr')) : Calls body D c₀ tr := by
  intro pre i op post c₁ l htr hrun hidle
  refine h pre i op (post ++ tr') c₁ l ?_ hrun hidle
  rw [htr, List.append_assoc, List.cons_append]

/-- The rule for whole runs: the store has moved along `R`, and what is left of every
call in progress goes on from the store as it is. -/
theorem Run.along (hrefl : ∀ s, R s s) (htrans : ∀ s₁ s₂ s₃, R s₁ s₂ → R s₂ s₃ → R s₁ s₃)
    (hkeep : ∀ s s', R s s' → I s → I s')
    (hbody : ∀ op l s, I s → D op l s → (body op l).along R (fun _ _ => True) s)
    (hI : I c₀.store) (h₀ : c₀.AtRest) (h : Run body c₀ tr c) (hD : Calls body D c₀ tr) :
    R c₀.store c.store ∧ ∀ i op l es p, c.client i = .busy op l es p →
      p.along R (fun _ _ => True) c.store := by
  induction h with
  | nil =>
      refine ⟨hrefl _, fun i op l es p hi => ?_⟩
      obtain ⟨l', hl'⟩ := h₀ i
      rw [hl'] at hi
      cases hi
  | @snoc tr c c' lbl hr hs ih =>
      obtain ⟨hR, hbusy⟩ := ih hD.append_left
      cases hs with
      | call j op' l' hj =>
          refine ⟨hR, fun i op l es p hi => ?_⟩
          rcases client_set hi with ⟨rfl, heq⟩ | hi
          · cases heq
            exact hbody _ _ _ (hkeep _ _ hR hI) (hD tr i op' [] c l' rfl hr hj)
          · exact hbusy i op l es p hi
      | act j op' l' es' p' q e hj ha =>
          obtain ⟨hmove, hrest⟩ := Prog.along_act hrefl (hbusy j _ _ _ _ hj) ha
          refine ⟨htrans _ _ _ hR hmove, fun i op l es p hi => ?_⟩
          rcases client_set hi with ⟨rfl, heq⟩ | hi
          · cases heq
            exact hrest
          · exact Prog.along_of_le htrans hmove (hbusy i op l es p hi)
      | retry j op' l' es' p' hj => exact ⟨hR, hbusy⟩
      | finish j op' l' es' r l'' hj =>
          refine ⟨hR, fun i op l es p hi => ?_⟩
          rcases client_set hi with ⟨rfl, heq⟩ | hi
          · cases heq
          · exact hbusy i op l es p hi

/-- Every step of such a run moves the store along `R`. -/
theorem Run.along_step (hrefl : ∀ s, R s s)
    (htrans : ∀ s₁ s₂ s₃, R s₁ s₂ → R s₂ s₃ → R s₁ s₃)
    (hkeep : ∀ s s', R s s' → I s → I s')
    (hbody : ∀ op l s, I s → D op l s → (body op l).along R (fun _ _ => True) s)
    (hI : I c₀.store) (h₀ : c₀.AtRest) (h : Run body c₀ tr c) (hD : Calls body D c₀ tr)
    {lbl : Label ι S Y L Op Res} {c' : Config ι S Y L Op Res} (hs : Step body c lbl c') :
    R c.store c'.store := by
  have hbusy := (h.along hrefl htrans hkeep hbody hI h₀ hD).2
  cases hs with
  | call => exact hrefl _
  | act j op' l' es' p' q e hj ha => exact (Prog.along_act hrefl (hbusy j _ _ _ _ hj) ha).1
  | retry => exact hrefl _
  | finish => exact hrefl _

end Runs

end Interleaving
