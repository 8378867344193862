import Mathlib.Data.List.Basic

/-!
# Sequential clients of a shared store

A client of a store `S` is a tree of atomic actions: it reads the store, it
updates the store in one transaction, or it calls something outside the store
whose answer is not determined by it. `Prog S Y α` is the type of such clients,
with `Y x` the answers of the call `x` and `α` the type of results.

An `Event` records one action together with what it met. `Leads p es q` says
that `p` performs exactly the events `es` and is left with the program `q`; the
stores in `es` are arbitrary, so anything may have happened to the store between
two actions. `Monitor` adds a ghost state that is advanced by every event, and
`wp` is the weakest precondition of a program for it: under `rely` every event
of the program satisfies `guar`, and the postcondition holds of the ghost state
and the result at the end.
-/

namespace Interleaving

/-- A sequential client of the store `S`: the result, one read of the store, one
transaction (the continuation gets the store as the transaction found it), or a
call to something outside the store. -/
inductive Prog (S : Type) {X : Type} (Y : X → Type) (α : Type) where
  | ret (a : α)
  | read (k : S → Prog S Y α)
  | update (f : S → S) (k : S → Prog S Y α)
  | call (x : X) (k : Y x → Prog S Y α)

/-- What a client did at one of its actions: the store it read, the store before
and after its transaction, or the answer to its call. -/
inductive Event (S : Type) {X : Type} (Y : X → Type) where
  | read (s : S)
  | update (pre post : S)
  | call (x : X) (y : Y x)

/-- The store an event met. -/
def Event.At {S X : Type} {Y : X → Type} : Event S Y → S → Prop
  | .read s', s => s' = s
  | .update pre _, s => pre = s
  | .call _ _, _ => True

/-- The store an event leaves behind. -/
def Event.after {S X : Type} {Y : X → Type} : Event S Y → S → S
  | .read _, s => s
  | .update _ post, _ => post
  | .call _ _, s => s

namespace Prog

def bind {S X : Type} {Y : X → Type} {α β : Type} :
    Prog S Y α → (α → Prog S Y β) → Prog S Y β
  | ret a, g => g a
  | read k, g => read fun s => (k s).bind g
  | update f k, g => update f fun s => (k s).bind g
  | call x k, g => call x fun y => (k y).bind g

instance {S X : Type} {Y : X → Type} : Monad (Prog S Y) where
  pure := ret
  bind := bind

/-- One read of the store. -/
def select {S X : Type} {Y : X → Type} : Prog S Y S := read ret

/-- One transaction; the result is the store as the transaction found it. -/
def transact {S X : Type} {Y : X → Type} (f : S → S) : Prog S Y S := update f ret

/-- One call to something outside the store. -/
def perform {S X : Type} {Y : X → Type} (x : X) : Prog S Y (Y x) := call x ret

@[simp] theorem pure_eq {S X : Type} {Y : X → Type} {α : Type} (a : α) :
    (pure a : Prog S Y α) = ret a := rfl

@[simp] theorem ret_bind {S X : Type} {Y : X → Type} {α β : Type}
    (a : α) (g : α → Prog S Y β) : (ret a >>= g) = g a := rfl

@[simp] theorem read_bind {S X : Type} {Y : X → Type} {α β : Type}
    (k : S → Prog S Y α) (g : α → Prog S Y β) :
    (read k >>= g) = read fun s => k s >>= g := rfl

@[simp] theorem update_bind {S X : Type} {Y : X → Type} {α β : Type}
    (f : S → S) (k : S → Prog S Y α) (g : α → Prog S Y β) :
    (update f k >>= g) = update f fun s => k s >>= g := rfl

@[simp] theorem call_bind {S X : Type} {Y : X → Type} {α β : Type}
    (x : X) (k : Y x → Prog S Y α) (g : α → Prog S Y β) :
    (call x k >>= g) = call x fun y => k y >>= g := rfl

@[simp] theorem select_bind {S X : Type} {Y : X → Type} {β : Type}
    (g : S → Prog S Y β) : (select >>= g) = read g := rfl

@[simp] theorem transact_bind {S X : Type} {Y : X → Type} {β : Type}
    (f : S → S) (g : S → Prog S Y β) : (transact f >>= g) = update f g := rfl

@[simp] theorem perform_bind {S X : Type} {Y : X → Type} {β : Type}
    (x : X) (g : Y x → Prog S Y β) : (perform x >>= g) = call x g := rfl

/-- One action of a program at the store `s`: its event and the rest of it. -/
inductive Act {S X : Type} {Y : X → Type} {α : Type} :
    Prog S Y α → S → Event S Y → Prog S Y α → Prop
  | read (k : S → Prog S Y α) (s : S) : Act (.read k) s (.read s) (k s)
  | update (f : S → S) (k : S → Prog S Y α) (s : S) :
      Act (.update f k) s (.update s (f s)) (k s)
  | call (x : X) (k : Y x → Prog S Y α) (s : S) (y : Y x) :
      Act (.call x k) s (.call x y) (k y)

theorem Act.at {S X : Type} {Y : X → Type} {α : Type} {p q : Prog S Y α} {s : S}
    {e : Event S Y} (h : Act p s e q) : e.At s := by
  cases h with
  | read => rfl
  | update => rfl
  | call => trivial

/-- An action depends on the store only through its event. -/
theorem Act.restart {S X : Type} {Y : X → Type} {α : Type} {p q : Prog S Y α} {s s' : S}
    {e : Event S Y} (h : Act p s e q) (hat : e.At s') : Act p s' e q := by
  cases h with
  | read k =>
      cases hat
      exact .read k s
  | update f k =>
      cases hat
      exact .update f k s
  | call x k s y => exact .call x k s' y

/-- `p` performs exactly the events `es` and is left with `q`. The store may have
been changed by others between two events. -/
inductive Leads {S X : Type} {Y : X → Type} {α : Type} :
    Prog S Y α → List (Event S Y) → Prog S Y α → Prop
  | refl (p : Prog S Y α) : Leads p [] p
  | cons {p q r : Prog S Y α} {s : S} {e : Event S Y} {es : List (Event S Y)}
      (ha : Act p s e q) (h : Leads q es r) : Leads p (e :: es) r

/-- `p` performs the events `es` and returns `a`. -/
def Runs {S X : Type} {Y : X → Type} {α : Type}
    (p : Prog S Y α) (es : List (Event S Y)) (a : α) : Prop :=
  Leads p es (ret a)

theorem Leads.snoc {S X : Type} {Y : X → Type} {α : Type}
    {p q r : Prog S Y α} {s : S} {e : Event S Y} {es : List (Event S Y)}
    (h : Leads p es q) (ha : Act q s e r) : Leads p (es ++ [e]) r := by
  induction h with
  | refl p => exact .cons ha (.refl _)
  | cons ha' _ ih => exact .cons ha' (ih ha)

theorem runs_ret {S X : Type} {Y : X → Type} {α : Type}
    {a b : α} {es : List (Event S Y)} :
    Runs (ret a : Prog S Y α) es b ↔ es = [] ∧ b = a := by
  constructor
  · intro h
    cases h with
    | refl => exact ⟨rfl, rfl⟩
    | cons ha _ => cases ha
  · rintro ⟨rfl, rfl⟩
    exact .refl _

theorem runs_read {S X : Type} {Y : X → Type} {α : Type}
    {k : S → Prog S Y α} {es : List (Event S Y)} {b : α} :
    Runs (read k) es b ↔ ∃ s es', es = .read s :: es' ∧ Runs (k s) es' b := by
  constructor
  · intro h
    cases h with
    | cons ha h =>
        cases ha
        exact ⟨_, _, rfl, h⟩
  · rintro ⟨s, es', rfl, h⟩
    exact .cons (.read k s) h

theorem runs_update {S X : Type} {Y : X → Type} {α : Type}
    {f : S → S} {k : S → Prog S Y α} {es : List (Event S Y)} {b : α} :
    Runs (update f k) es b ↔
      ∃ s es', es = .update s (f s) :: es' ∧ Runs (k s) es' b := by
  constructor
  · intro h
    cases h with
    | cons ha h =>
        cases ha
        exact ⟨_, _, rfl, h⟩
  · rintro ⟨s, es', rfl, h⟩
    exact .cons (.update f k s) h

theorem runs_call {S X : Type} {Y : X → Type} {α : Type} [Inhabited S]
    {x : X} {k : Y x → Prog S Y α} {es : List (Event S Y)} {b : α} :
    Runs (call x k) es b ↔ ∃ y es', es = .call x y :: es' ∧ Runs (k y) es' b := by
  constructor
  · intro h
    cases h with
    | cons ha h =>
        cases ha
        exact ⟨_, _, rfl, h⟩
  · rintro ⟨y, es', rfl, h⟩
    exact .cons (.call x k default y) h

/-- Sequencing: a run of `p >>= g` is a run of `p` followed by a run of `g`. -/
theorem runs_bind {S X : Type} {Y : X → Type} {α β : Type} [Inhabited S]
    {p : Prog S Y α} {g : α → Prog S Y β} {es : List (Event S Y)} {b : β} :
    Runs (p >>= g) es b ↔
      ∃ a es₁ es₂, es = es₁ ++ es₂ ∧ Runs p es₁ a ∧ Runs (g a) es₂ b := by
  induction p generalizing es with
  | ret a => simp [runs_ret]
  | read k ih =>
      simp only [read_bind, runs_read, ih]
      constructor
      · rintro ⟨s, _, rfl, a, es₁, es₂, rfl, h₁, h₂⟩
        exact ⟨a, .read s :: es₁, es₂, rfl, ⟨s, es₁, rfl, h₁⟩, h₂⟩
      · rintro ⟨a, _, es₂, rfl, ⟨s, es₁, rfl, h₁⟩, h₂⟩
        exact ⟨s, es₁ ++ es₂, rfl, a, es₁, es₂, rfl, h₁, h₂⟩
  | update f k ih =>
      simp only [update_bind, runs_update, ih]
      constructor
      · rintro ⟨s, _, rfl, a, es₁, es₂, rfl, h₁, h₂⟩
        exact ⟨a, .update s (f s) :: es₁, es₂, rfl, ⟨s, es₁, rfl, h₁⟩, h₂⟩
      · rintro ⟨a, _, es₂, rfl, ⟨s, es₁, rfl, h₁⟩, h₂⟩
        exact ⟨s, es₁ ++ es₂, rfl, a, es₁, es₂, rfl, h₁, h₂⟩
  | call x k ih =>
      simp only [call_bind, runs_call, ih]
      constructor
      · rintro ⟨y, _, rfl, a, es₁, es₂, rfl, h₁, h₂⟩
        exact ⟨a, .call x y :: es₁, es₂, rfl, ⟨y, es₁, rfl, h₁⟩, h₂⟩
      · rintro ⟨a, _, es₂, rfl, ⟨y, es₁, rfl, h₁⟩, h₂⟩
        exact ⟨y, es₁ ++ es₂, rfl, a, es₁, es₂, rfl, h₁, h₂⟩

end Prog

/-- A ghost state for one client: how an event advances it, what the client may
assume of the store in it, and what each of its events must satisfy in it. -/
structure Monitor (S : Type) {X : Type} (Y : X → Type) (G : Type) where
  next : G → Event S Y → G
  rely : G → S → Prop
  guar : G → Event S Y → Prop

namespace Prog

/-- The weakest precondition of `p` for the monitor `m` and the postcondition
`Q`: as long as the store meets `rely`, every event of `p` meets `guar`, and `Q`
holds of the ghost state and the result when `p` returns. -/
def wp {S X : Type} {Y : X → Type} {G : Type} (m : Monitor S Y G) {α : Type} :
    Prog S Y α → (G → α → Prop) → G → Prop
  | ret a, Q, g => Q g a
  | read k, Q, g => ∀ s, m.rely g s →
      m.guar g (.read s) ∧ (k s).wp m Q (m.next g (.read s))
  | update f k, Q, g => ∀ s, m.rely g s →
      m.guar g (.update s (f s)) ∧ (k s).wp m Q (m.next g (.update s (f s)))
  | call x k, Q, g => ∀ y,
      m.guar g (.call x y) ∧ (k y).wp m Q (m.next g (.call x y))

theorem wp_ret {S X : Type} {Y : X → Type} {G : Type} (m : Monitor S Y G) {α : Type}
    (a : α) (Q : G → α → Prop) (g : G) : (ret a : Prog S Y α).wp m Q g ↔ Q g a :=
  Iff.rfl

theorem wp_mono {S X : Type} {Y : X → Type} {G : Type} (m : Monitor S Y G)
    {α : Type} {p : Prog S Y α} {Q Q' : G → α → Prop} {g : G}
    (hQ : ∀ g a, Q g a → Q' g a) (h : p.wp m Q g) : p.wp m Q' g := by
  induction p generalizing g with
  | ret a => exact hQ g a h
  | read k ih =>
      intro s hs
      exact ⟨(h s hs).1, ih s (h s hs).2⟩
  | update f k ih =>
      intro s hs
      exact ⟨(h s hs).1, ih s (h s hs).2⟩
  | call x k ih =>
      intro y
      exact ⟨(h y).1, ih y (h y).2⟩

/-- One action of a program: its event is guaranteed, and the rest of the program
still has its weakest precondition. -/
theorem wp_act {S X : Type} {Y : X → Type} {G : Type} {m : Monitor S Y G}
    {α : Type} {p q : Prog S Y α} {Q : G → α → Prop} {g : G} {s : S}
    {e : Event S Y} (h : p.wp m Q g) (hs : m.rely g s) (ha : Act p s e q) :
    m.guar g e ∧ q.wp m Q (m.next g e) := by
  cases ha with
  | read k s => exact h s hs
  | update f k s => exact h s hs
  | call x k s y => exact h y

/-- The sequencing rule. -/
theorem wp_bind {S X : Type} {Y : X → Type} {G : Type} (m : Monitor S Y G)
    {α β : Type} {p : Prog S Y α} {q : α → Prog S Y β} {Q : G → β → Prop}
    {g : G} (h : p.wp m (fun g a => (q a).wp m Q g) g) :
    (p >>= q).wp m Q g := by
  induction p generalizing g with
  | ret a => exact h
  | read k ih =>
      intro s hs
      exact ⟨(h s hs).1, ih s (h s hs).2⟩
  | update f k ih =>
      intro s hs
      exact ⟨(h s hs).1, ih s (h s hs).2⟩
  | call x k ih =>
      intro y
      exact ⟨(h y).1, ih y (h y).2⟩

/-- The program reads and updates the store and calls nothing else, and each of its
updates is within `R`. -/
def Within {S X : Type} {Y : X → Type} {α : Type} (R : S → S → Prop) :
    Prog S Y α → Prop
  | ret _ => True
  | read k => ∀ s, (k s).Within R
  | update f k => ∀ s, R s (f s) ∧ (k s).Within R
  | call _ _ => False

theorem within_bind {S X : Type} {Y : X → Type} {α β : Type} {R : S → S → Prop}
    {p : Prog S Y α} {q : α → Prog S Y β} (hp : p.Within R)
    (hq : ∀ a, (q a).Within R) : (p >>= q).Within R := by
  induction p with
  | ret a => exact hq a
  | read k ih => exact fun s => ih s (hp s)
  | update f k ih => exact fun s => ⟨(hp s).1, ih s (hp s).2⟩
  | call x k ih => exact hp.elim

/-- A property `J` of the ghost state that reads and the updates within `R` keep holds
after a program that does nothing else. -/
theorem wp_of_within {S X : Type} {Y : X → Type} {G : Type} {m : Monitor S Y G}
    {α : Type} {R : S → S → Prop} {J : G → Prop} {p : Prog S Y α} {g : G}
    (hread : ∀ g s, J g → m.rely g s → m.guar g (.read s) ∧ J (m.next g (.read s)))
    (hupdate : ∀ g s s', J g → m.rely g s → R s s' →
      m.guar g (.update s s') ∧ J (m.next g (.update s s')))
    (hp : p.Within R) (hg : J g) : p.wp m (fun g' _ => J g') g := by
  induction p generalizing g with
  | ret a => exact hg
  | read k ih =>
      intro s hs
      obtain ⟨hguar, hnext⟩ := hread g s hg hs
      exact ⟨hguar, ih s (hp s) hnext⟩
  | update f k ih =>
      intro s hs
      obtain ⟨hguar, hnext⟩ := hupdate g s (f s) hg hs (hp s).1
      exact ⟨hguar, ih s (hp s).2 hnext⟩
  | call x k ih => exact hp.elim

/-- Nobody else changes the store while the events are performed, from `s` on. -/
def Undisturbed {S X : Type} {Y : X → Type} : S → List (Event S Y) → Prop
  | _, [] => True
  | s, e :: es => e.At s ∧ Undisturbed (e.after s) es

/-- What a program that is alone establishes: `J` ties the ghost state to the store, and
supplies what the monitor relies on. -/
theorem wp_runs {S X : Type} {Y : X → Type} {G : Type} {m : Monitor S Y G} {α : Type}
    {p : Prog S Y α} {Q : G → α → Prop} {g : G} {s : S} {es : List (Event S Y)} {a : α}
    {J : G → S → Prop} (hJ : J g s) (hrely : ∀ g s, J g s → m.rely g s)
    (hnext : ∀ g s e, J g s → e.At s → J (m.next g e) (e.after s))
    (h : p.wp m Q g) (hr : p.Runs es a) (hu : Undisturbed s es) :
    Q (es.foldl m.next g) a := by
  induction es generalizing p g s with
  | nil =>
      cases hr with
      | refl => exact h
  | cons e es ih =>
      cases hr with
      | cons ha hr =>
          have hact := wp_act h (hrely g s hJ) (ha.restart hu.1)
          exact ih (hnext g s e hJ hu.1) hact.2 hr hu.2

/-- The run of a program that is alone and gets the answers `as` to its calls. -/
def execute {S X : Type} {Y : X → Type} {α : Type} [DecidableEq X] :
    Prog S Y α → S → List ((x : X) × Y x) → Option (List (Event S Y) × α)
  | ret a, _, [] => some ([], a)
  | ret _, _, _ :: _ => none
  | read k, s, as => ((k s).execute s as).map fun r => (.read s :: r.1, r.2)
  | update f k, s, as =>
      ((k s).execute (f s) as).map fun r => (.update s (f s) :: r.1, r.2)
  | call _ _, _, [] => none
  | call x k, s, ⟨x', y⟩ :: as =>
      if h : x' = x then
        ((k (h ▸ y)).execute s as).map fun r => (.call x (h ▸ y) :: r.1, r.2)
      else none

/-- The result of a program that is alone and calls nothing, and the store it leaves. -/
def alone {S α : Type} {Y : Empty → Type} : Prog S Y α → S → α × S
  | ret a, s => (a, s)
  | read k, s => (k s).alone s
  | update f k, s => (k s).alone (f s)
  | call x _, _ => nomatch x

/-- What is executed is a run, and nobody has disturbed it. -/
theorem runs_of_execute {S X : Type} {Y : X → Type} {α : Type} [DecidableEq X]
    {p : Prog S Y α} {s : S} {as : List ((x : X) × Y x)} {es : List (Event S Y)} {a : α}
    (h : p.execute s as = some (es, a)) : p.Runs es a ∧ Undisturbed s es := by
  induction p generalizing s as es with
  | ret b =>
      cases as with
      | nil =>
          cases h
          exact ⟨.refl _, trivial⟩
      | cons y as => cases h
  | read k ih =>
      obtain ⟨⟨es', b⟩, hk, heq⟩ := Option.map_eq_some_iff.1 h
      cases heq
      obtain ⟨hr, hu⟩ := ih s hk
      exact ⟨.cons (.read k s) hr, rfl, hu⟩
  | update f k ih =>
      obtain ⟨⟨es', b⟩, hk, heq⟩ := Option.map_eq_some_iff.1 h
      cases heq
      obtain ⟨hr, hu⟩ := ih s hk
      exact ⟨.cons (.update f k s) hr, rfl, hu⟩
  | call x k ih =>
      cases as with
      | nil => cases h
      | cons y as =>
          obtain ⟨x', y⟩ := y
          simp only [execute] at h
          split at h
          · rename_i hx
            subst hx
            obtain ⟨⟨es', b⟩, hk, heq⟩ := Option.map_eq_some_iff.1 h
            cases heq
            obtain ⟨hr, hu⟩ := ih y hk
            exact ⟨.cons (.call x' k s y) hr, trivial, hu⟩
          · cases h

end Prog

end Interleaving
