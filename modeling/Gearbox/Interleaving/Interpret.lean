import Gearbox.Interleaving.Except

/-!
# Calls that are carried out

A call of a program goes to something outside its store. In a larger system that has this
something in its own store, the call is a program of the larger system: `interpret` puts
these programs in the place of the calls. `wp_interpret` carries the weakest precondition
of the program over, provided that the programs do to the ghost state what the calls do.

`Confined R C p` says what a program may do at all, whatever it is answered: its
transactions are within `R` and its calls within `C`.
-/

namespace Interleaving

namespace Prog

section Interpret

variable {S S' X X' : Type} {Y : X → Type} {Y' : X' → Type} {α : Type}

/-- The program on a larger store: `get` is the part that it works on, `put` replaces this
part, and `carry x` is what the larger system does for the call `x`. -/
def interpret (get : S' → S) (put : S → S' → S') (carry : ∀ x, Prog S' Y' (Y x)) :
    Prog S Y α → Prog S' Y' α
  | ret a => ret a
  | read k => read fun s => (k (get s)).interpret get put carry
  | update f k =>
      update (fun s => put (f (get s)) s) fun s => (k (get s)).interpret get put carry
  | call x k => (carry x).bind fun y => (k y).interpret get put carry

/-- Two monitors with the same ghost states, one for a program and one for the larger
system: if they agree on reads and transactions, and what is done for a call advances the
ghost state as the call does, then the program keeps its weakest precondition. -/
theorem wp_interpret {G : Type} {m : Monitor S Y G} {m' : Monitor S' Y' G}
    (get : S' → S) (put : S → S' → S') (carry : ∀ x, Prog S' Y' (Y x))
    (hrely : ∀ g s, m'.rely g s → m.rely g (get s))
    (hread : ∀ g s, m'.rely g s → m.guar g (.read (get s)) →
      m'.guar g (.read s) ∧ m'.next g (.read s) = m.next g (.read (get s)))
    (hupdate : ∀ g s t, m'.rely g s → m.guar g (.update (get s) t) →
      m'.guar g (.update s (put t s)) ∧
        m'.next g (.update s (put t s)) = m.next g (.update (get s) t))
    (hcall : ∀ g x, (∀ y, m.guar g (.call x y)) →
      (carry x).wp m' (fun g' y => g' = m.next g (.call x y)) g)
    {p : Prog S Y α} {Q : G → α → Prop} {g : G} (h : p.wp m Q g) :
    (p.interpret get put carry).wp m' Q g := by
  induction p generalizing g with
  | ret a => exact h
  | read k ih =>
      intro s hs
      obtain ⟨hguar, hrest⟩ := h (get s) (hrely g s hs)
      obtain ⟨hguar', hnext⟩ := hread g s hs hguar
      refine ⟨hguar', ?_⟩
      rw [hnext]
      exact ih _ hrest
  | update f k ih =>
      intro s hs
      obtain ⟨hguar, hrest⟩ := h (get s) (hrely g s hs)
      obtain ⟨hguar', hnext⟩ := hupdate g s (f (get s)) hs hguar
      refine ⟨hguar', ?_⟩
      rw [hnext]
      exact ih _ hrest
  | call x k ih =>
      refine wp_bind m' (wp_mono m' ?_ (hcall g x fun y => (h y).1))
      rintro g' y rfl
      exact ih y (h y).2

end Interpret

section Confined

variable {S X : Type} {Y : X → Type} {ε α β : Type} {R : S → S → Prop} {C : X → Prop}

/-- The transactions of the program are within `R` and its calls within `C`. -/
def Confined (R : S → S → Prop) (C : X → Prop) : Prog S Y α → Prop
  | ret _ => True
  | read k => ∀ s, (k s).Confined R C
  | update f k => ∀ s, R s (f s) ∧ (k s).Confined R C
  | call x k => C x ∧ ∀ y, (k y).Confined R C

theorem confined_of_within {R' : S → S → Prop} (hR : ∀ s s', R' s s' → R s s')
    {p : Prog S Y α} (hp : p.Within R') : p.Confined R C := by
  induction p with
  | ret a => trivial
  | read k ih => exact fun s => ih s (hp s)
  | update f k ih => exact fun s => ⟨hR _ _ (hp s).1, ih s (hp s).2⟩
  | call x k ih => exact hp.elim

theorem confined_bind {p : Prog S Y α} {q : α → Prog S Y β} (hp : p.Confined R C)
    (hq : ∀ a, (q a).Confined R C) : (p >>= q).Confined R C := by
  induction p with
  | ret a => exact hq a
  | read k ih => exact fun s => ih s (hp s)
  | update f k ih => exact fun s => ⟨(hp s).1, ih s (hp s).2⟩
  | call x k ih => exact ⟨hp.1, fun y => ih y (hp.2 y)⟩

/-- A property `J` of the ghost state that reads, the transactions within `R` and the calls
within `C` keep holds after the program. -/
theorem wp_of_confined {G : Type} {m : Monitor S Y G} {J : G → Prop} {p : Prog S Y α} {g : G}
    (hread : ∀ g s, J g → m.rely g s → m.guar g (.read s) ∧ J (m.next g (.read s)))
    (hupdate : ∀ g s s', J g → m.rely g s → R s s' →
      m.guar g (.update s s') ∧ J (m.next g (.update s s')))
    (hcall : ∀ g x y, J g → C x → m.guar g (.call x y) ∧ J (m.next g (.call x y)))
    (hp : p.Confined R C) (hg : J g) : p.wp m (fun g' _ => J g') g := by
  induction p generalizing g with
  | ret a => exact hg
  | read k ih =>
      intro s hs
      obtain ⟨hguar, hnext⟩ := hread g s hg hs
      exact ⟨hguar, ih s (hp s) hnext⟩
  | update f k ih =>
      intro s hs
      obtain ⟨hguar, hnext⟩ := hupdate g s (f s) hg hs (hp s).1
      exact ⟨hguar, ih s (hp s).2 hnext⟩
  | call x k ih =>
      intro y
      obtain ⟨hguar, hnext⟩ := hcall g x y hg hp.1
      exact ⟨hguar, ih y (hp.2 y) hnext⟩

/-! A client that may throw is confined as the program that it is. -/

/-- `Confined` for a client that may throw. -/
def ConfinedE (R : S → S → Prop) (C : X → Prop) (p : ExceptT ε (Prog S Y) α) : Prop :=
  p.run.Confined R C

theorem confinedE_pure (a : α) :
    ConfinedE R C (pure a : ExceptT ε (Prog S Y) α) := trivial

theorem confinedE_throw (e : ε) :
    ConfinedE R C (throw e : ExceptT ε (Prog S Y) α) := trivial

theorem confinedE_lift {p : Prog S Y α} (hp : p.Confined R C) :
    ConfinedE R C (liftM p : ExceptT ε (Prog S Y) α) :=
  confined_bind hp fun _ => trivial

theorem confinedE_bind {p : ExceptT ε (Prog S Y) α} {q : α → ExceptT ε (Prog S Y) β}
    (hp : ConfinedE R C p) (hq : ∀ a, ConfinedE R C (q a)) : ConfinedE R C (p >>= q) := by
  refine confined_bind hp fun r => ?_
  cases r with
  | ok a => exact hq a
  | error e => trivial

theorem confinedE_tryCatch {p : ExceptT ε (Prog S Y) α} {q : ε → ExceptT ε (Prog S Y) α}
    (hp : ConfinedE R C p) (hq : ∀ e, ConfinedE R C (q e)) :
    ConfinedE R C (tryCatch p q) := by
  refine confined_bind hp fun r => ?_
  cases r with
  | ok a => trivial
  | error e => exact hq e

end Confined

end Prog

end Interleaving
