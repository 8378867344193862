import Gearbox.Interleaving.System

/-!
# Programs on a part of the store

A program on the store `S` is also a program on every store `S'` that has `S` as a part:
it reads the part, its transactions change only the part, and its calls are calls of the
larger system. `wp_embed` carries its weakest precondition over.
-/

namespace Interleaving

namespace Prog

section Embed

variable {S S' X X' : Type} {Y : X → Type} {Y' : X' → Type} {α : Type}

/-- The program on a larger store: `get` is the part that it works on, `put` replaces
this part, and `out` is the call of the larger system for one of its calls. -/
def embed (get : S' → S) (put : S → S' → S') (out : X → X')
    (back : ∀ x, Y' (out x) → Y x) : Prog S Y α → Prog S' Y' α
  | ret a => ret a
  | read k => read fun s => (k (get s)).embed get put out back
  | update f k =>
      update (fun s => put (f (get s)) s) fun s => (k (get s)).embed get put out back
  | call x k => call (out x) fun y => (k (back x y)).embed get put out back

/-- A monitor that only looks at the transactions, which are within `R`. -/
def changes (R : S → S → Prop) : Monitor S Y Unit where
  next _ _ := ()
  rely _ _ := True
  guar _ e :=
    match e with
    | .update s s' => R s s'
    | _ => True

/-- A program whose transactions are within `R` keeps a property `J` of the ghost state
of the larger system that reads, calls and these transactions keep. -/
theorem wp_embed {G : Type} {m : Monitor S' Y' G} {R : S → S → Prop} {J : G → Prop}
    (get : S' → S) (put : S → S' → S') (out : X → X') (back : ∀ x, Y' (out x) → Y x)
    (hread : ∀ g s, J g → m.rely g s → m.guar g (.read s) ∧ J (m.next g (.read s)))
    (hupdate : ∀ g s t, J g → m.rely g s → R (get s) t →
      m.guar g (.update s (put t s)) ∧ J (m.next g (.update s (put t s))))
    (hcall : ∀ g x (y : Y' (out x)), J g →
      m.guar g (.call (out x) y) ∧ J (m.next g (.call (out x) y)))
    {p : Prog S Y α} {Q : Unit → α → Prop} (h : p.wp (changes R) Q ()) {g : G} (hg : J g) :
    (p.embed get put out back).wp m (fun g' a => J g' ∧ Q () a) g := by
  induction p generalizing g with
  | ret a => exact ⟨hg, h⟩
  | read k ih =>
      intro s hs
      obtain ⟨hguar, hnext⟩ := hread g s hg hs
      exact ⟨hguar, ih _ (h (get s) trivial).2 hnext⟩
  | update f k ih =>
      intro s hs
      have hf := h (get s) trivial
      obtain ⟨hguar, hnext⟩ := hupdate g s (f (get s)) hg hs hf.1
      exact ⟨hguar, ih _ hf.2 hnext⟩
  | call x k ih =>
      intro y
      obtain ⟨hguar, hnext⟩ := hcall g x y hg
      exact ⟨hguar, ih _ (h (back x y)).2 hnext⟩

end Embed

end Prog

section Busy

variable {ι S X : Type} {Y : X → Type} {L Op Res : Type} [DecidableEq ι] {G : Type}
  {body : Op → L → Prog S Y (Res × L)} {c₀ c : Config ι S Y L Op Res}
  {tr : List (Label ι S Y L Op Res)} {m : Monitor S Y G} {ready : G → L → Prop}
  {post : Op → L → G → Res × L → Prop}
  {I : List (ι × Event S Y) → S → (ι → G) → Prop}
  {C : List (ι × Event S Y) → ι → Event S Y → Prop} {g : ι → G}

/-- The ghost state of a client in the middle of a call is what the events of the call
have made of a state that was ready for it. -/
theorem Run.ghost_busy (hrg : RelyGuarantee body m ready post I C)
    (hI₀ : I [] c₀.store g) (h₀ : ∀ i, ∃ l, c₀.client i = .idle l ∧ ready (g i) l)
    (h : Run body c₀ tr c) (hC : Meets C (events tr)) {i : ι} {op : Op} {l : L}
    {es : List (Event S Y)} {p : Prog S Y (Res × L)}
    (hi : c.client i = .busy op l es p) :
    ∃ g₁, ready g₁ l ∧ ghost m g (events tr) i = es.foldl m.next g₁ := by
  induction h generalizing i op l es p with
  | nil =>
      obtain ⟨l', hl', -⟩ := h₀ i
      rw [hl'] at hi
      cases hi
  | @snoc tr c c' lbl hr hs ih =>
      rw [events_append] at hC ⊢
      have hbefore := hC.append_left
      obtain ⟨-, hkeeps, -⟩ := hr.relyGuarantee hrg hI₀ h₀ hbefore
      cases hs with
      | call j op' l' hj =>
          simp only [events, List.append_nil]
          rcases client_set hi with ⟨rfl, heq⟩ | hi
          · cases heq
            have hready := hkeeps i
            rw [hj] at hready
            exact ⟨_, hready, rfl⟩
          · exact ih hbefore hi
      | act j op' l' es' p' q e hj ha =>
          simp only [events]
          rw [ghost_snoc]
          by_cases hij : i = j
          · subst hij
            have hself : (c.set i (.busy op' l' (es' ++ [e]) q)).client i =
                .busy op' l' (es' ++ [e]) q := Function.update_self _ _ _
            rw [hself] at hi
            cases hi
            obtain ⟨g₁, hready, hghost⟩ := ih hbefore hj
            refine ⟨g₁, hready, ?_⟩
            rw [Function.update_self, hghost, List.foldl_append]
            rfl
          · rw [Function.update_of_ne hij]
            rcases client_set hi with ⟨heq, -⟩ | hi'
            · exact absurd heq hij
            · exact ih hbefore hi'
      | retry j op' l' es' p' hj =>
          simp only [events, List.append_nil]
          exact ih hbefore hi
      | finish j op' l' es' r l'' hj =>
          simp only [events, List.append_nil]
          rcases client_set hi with ⟨rfl, heq⟩ | hi
          · cases heq
          · exact ih hbefore hi

end Busy

end Interleaving
