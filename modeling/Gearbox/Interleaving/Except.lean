import Gearbox.Interleaving.Prog

/-!
# Clients that throw

`ExceptT ε (Prog S Y) α` is a client that may throw an `ε`. Its weakest precondition
`wpE` has two postconditions, one for a normal return and one for an exception, and
the rules below follow the constructs of such a program: return, throw, sequencing, a
call of something that does not throw, and `try`/`catch`.
-/

namespace Interleaving

namespace Prog

variable {S X : Type} {Y : X → Type} {G ε α β : Type}

/-- The weakest precondition of a client that may throw: `Q` after a normal return and
`E` after an exception. -/
def wpE (m : Monitor S Y G) (p : ExceptT ε (Prog S Y) α) (Q : G → α → Prop)
    (E : G → ε → Prop) (g : G) : Prop :=
  p.run.wp m (fun g r => match r with | .ok a => Q g a | .error e => E g e) g

variable {m : Monitor S Y G} {Q : G → α → Prop} {E : G → ε → Prop} {g : G}

theorem wpE_pure {a : α} (h : Q g a) :
    wpE m (pure a : ExceptT ε (Prog S Y) α) Q E g := h

theorem wpE_throw {e : ε} (h : E g e) :
    wpE m (throw e : ExceptT ε (Prog S Y) α) Q E g := h

theorem wpE_mono {p : ExceptT ε (Prog S Y) α} {Q' : G → α → Prop} {E' : G → ε → Prop}
    (hQ : ∀ g a, Q g a → Q' g a) (hE : ∀ g e, E g e → E' g e)
    (h : wpE m p Q E g) : wpE m p Q' E' g := by
  refine wp_mono m ?_ h
  intro g r hr
  cases r with
  | ok a => exact hQ g a hr
  | error e => exact hE g e hr

/-- Something that does not throw. -/
theorem wpE_lift {p : Prog S Y α} (h : p.wp m Q g) :
    wpE m (liftM p : ExceptT ε (Prog S Y) α) Q E g :=
  wp_bind m h

/-- The sequencing rule. -/
theorem wpE_bind {p : ExceptT ε (Prog S Y) α} {q : α → ExceptT ε (Prog S Y) β}
    {Q : G → β → Prop} (h : wpE m p (fun g a => wpE m (q a) Q E g) E g) :
    wpE m (p >>= q) Q E g := by
  refine wp_bind m (wp_mono m ?_ h)
  intro g r hr
  cases r with
  | ok a => exact hr
  | error e => exact hr

/-- The handler starts where the exception was thrown. -/
theorem wpE_tryCatch {p : ExceptT ε (Prog S Y) α} {q : ε → ExceptT ε (Prog S Y) α}
    (h : wpE m p Q (fun g e => wpE m (q e) Q E g) g) :
    wpE m (tryCatch p q) Q E g := by
  refine wp_bind m (wp_mono m ?_ h)
  intro g r hr
  cases r with
  | ok a => exact hr
  | error e => exact hr

end Prog

end Interleaving
