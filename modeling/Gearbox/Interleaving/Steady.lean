import Gearbox.Interleaving.Embed

/-!
# Clients that keep an invariant of the store

The simplest way to rely on each other: every transaction of every client keeps one property `I`
of the store, so every client may use it of what it reads. `steady I A C Q` says this of a
program, together with what it calls: while the answers to its calls are as `A` has them, its
calls meet `C`, and its result meets `Q`.

`Run.steady` is the rule for whole runs. No ghost state is needed, and the calls of a run are part
of the conclusion.
-/

namespace Interleaving

namespace Prog

section Steady

variable {S X : Type} {Y : X → Type} {ε α β : Type} {I : S → Prop} {A : ∀ x, Y x → Prop}
  {C : X → Prop}

/-- The transactions of the program keep `I`, its calls meet `C` and its result meets `Q`, when
the others keep `I` too and the answers to its calls meet `A`. -/
def steady (I : S → Prop) (A : ∀ x, Y x → Prop) (C : X → Prop) (Q : α → Prop) :
    Prog S Y α → Prop
  | ret a => Q a
  | read k => ∀ s, I s → (k s).steady I A C Q
  | update f k => ∀ s, I s → I (f s) ∧ (k s).steady I A C Q
  | call x k => C x ∧ ∀ y, A x y → (k y).steady I A C Q

theorem steady_mono {p : Prog S Y α} {Q Q' : α → Prop} (hQ : ∀ a, Q a → Q' a)
    (h : p.steady I A C Q) : p.steady I A C Q' := by
  induction p with
  | ret a => exact hQ a h
  | read k ih => exact fun s hs => ih s (h s hs)
  | update f k ih => exact fun s hs => ⟨(h s hs).1, ih s (h s hs).2⟩
  | call x k ih => exact ⟨h.1, fun y hy => ih y (h.2 y hy)⟩

/-- The sequencing rule. -/
theorem steady_bind {p : Prog S Y α} {q : α → Prog S Y β} {Q : α → Prop} {Q' : β → Prop}
    (hp : p.steady I A C Q) (hq : ∀ a, Q a → (q a).steady I A C Q') :
    (p >>= q).steady I A C Q' := by
  induction p with
  | ret a => exact hq a hp
  | read k ih => exact fun s hs => ih s (hp s hs)
  | update f k ih => exact fun s hs => ⟨(hp s hs).1, ih s (hp s hs).2⟩
  | call x k ih => exact ⟨hp.1, fun y hy => ih y (hp.2 y hy)⟩

/-- One action keeps `I`, and the rest of the program is as the program was. -/
theorem steady_act {p q : Prog S Y α} {e : Event S Y} {s : S} {Q : α → Prop}
    (h : p.steady I A C Q) (ha : Act p s e q) (hs : I s)
    (hA : ∀ x y, e = .call x y → A x y) :
    I (e.after s) ∧ q.steady I A C Q ∧ ∀ x y, e = .call x y → C x := by
  cases ha with
  | read k s => exact ⟨hs, h s hs, by rintro x y ⟨⟩⟩
  | update f k s => exact ⟨(h s hs).1, (h s hs).2, by rintro x y ⟨⟩⟩
  | call x k s y =>
      refine ⟨hs, h.2 y (hA x y rfl), ?_⟩
      rintro x' y' ⟨⟩
      exact h.1

/-- A program on a part of the store is steady on the whole if it is so on the part. -/
theorem steady_embed {S' X' : Type} {Y' : X' → Type} {I' : S' → Prop}
    {A' : ∀ x, Y' x → Prop} {C' : X' → Prop} {get : S' → S} {put : S → S' → S'}
    {out : X → X'} {back : ∀ x, Y' (out x) → Y x} {p : Prog S Y α} {Q : α → Prop}
    (hget : ∀ s, I' s → I (get s)) (hput : ∀ t s, I' s → I t → I' (put t s))
    (hA : ∀ x y, A' (out x) y → A x (back x y)) (hC : ∀ x, C x → C' (out x))
    (h : p.steady I A C Q) : (p.embed get put out back).steady I' A' C' Q := by
  induction p with
  | ret a => exact h
  | read k ih => exact fun s hs => ih _ (h _ (hget s hs))
  | update f k ih =>
      intro s hs
      obtain ⟨hkeep, hrest⟩ := h _ (hget s hs)
      exact ⟨hput _ s hs hkeep, ih _ hrest⟩
  | call x k ih => exact ⟨hC x h.1, fun y hy => ih _ (h.2 _ (hA x y hy))⟩

/-! A client that may throw is steady as the program that it is; what it throws is free. -/

/-- `steady` for a client that may throw. -/
def steadyE (I : S → Prop) (A : ∀ x, Y x → Prop) (C : X → Prop) (Q : α → Prop)
    (p : ExceptT ε (Prog S Y) α) : Prop :=
  p.run.steady I A C fun r => ∀ a, r = .ok a → Q a

theorem steadyE_mono {p : ExceptT ε (Prog S Y) α} {Q Q' : α → Prop} (hQ : ∀ a, Q a → Q' a)
    (h : steadyE I A C Q p) : steadyE I A C Q' p :=
  steady_mono (fun _ hr a ha => hQ a (hr a ha)) h

theorem steadyE_pure {a : α} {Q : α → Prop} (h : Q a) :
    steadyE I A C Q (pure a : ExceptT ε (Prog S Y) α) := by
  rintro b ⟨⟩
  exact h

theorem steadyE_throw (e : ε) {Q : α → Prop} :
    steadyE I A C Q (throw e : ExceptT ε (Prog S Y) α) := by
  rintro b ⟨⟩

theorem steadyE_lift {p : Prog S Y α} {Q : α → Prop} (hp : p.steady I A C Q) :
    steadyE I A C Q (liftM p : ExceptT ε (Prog S Y) α) := by
  refine steady_bind hp fun a ha => ?_
  rintro b ⟨⟩
  exact ha

theorem steadyE_bind {p : ExceptT ε (Prog S Y) α} {q : α → ExceptT ε (Prog S Y) β}
    {Q : α → Prop} {Q' : β → Prop} (hp : steadyE I A C Q p)
    (hq : ∀ a, Q a → steadyE I A C Q' (q a)) : steadyE I A C Q' (p >>= q) := by
  refine steady_bind hp fun r hr => ?_
  cases r with
  | ok a => exact hq a (hr a rfl)
  | error e =>
      rintro b ⟨⟩

end Steady

end Prog

section Runs

variable {ι S X : Type} {Y : X → Type} {L Op Res : Type} [DecidableEq ι]
  {body : Op → L → Prog S Y (Res × L)} {c₀ c : Config ι S Y L Op Res}
  {tr : List (Label ι S Y L Op Res)} {I : S → Prop} {A : ∀ x, Y x → Prop} {C : X → Prop}
  {Q : Op → L → Res × L → Prop} {D : Op → Prop}

/-- The rule for whole runs, for operations that meet `D`: `I` holds at the end, the calls of the
run meet `C`, what has been returned meets `Q`, and what is left of every operation in progress
is steady. -/
theorem Run.steady (hbody : ∀ op l, D op → (body op l).steady I A C (Q op l))
    (hI : I c₀.store) (h₀ : c₀.AtRest) (h : Run body c₀ tr c)
    (hD : ∀ i op, .call i op ∈ tr → D op)
    (hA : ∀ i x y, (i, .call x y) ∈ events tr → A x y) :
    I c.store ∧ (∀ i x y, (i, .call x y) ∈ events tr → C x) ∧
      (∀ i op l es r l', .finish i op l es r l' ∈ tr → Q op l (r, l')) ∧
      ∀ i op l es p, c.client i = .busy op l es p → p.steady I A C (Q op l) := by
  induction h with
  | nil =>
      refine ⟨hI, fun i x y hx => ?_, fun i op l es r l' hl => ?_, fun i op l es p hi => ?_⟩
      · cases hx
      · cases hl
      · obtain ⟨l', hl'⟩ := h₀ i
        rw [hl'] at hi
        cases hi
  | @snoc tr c c' lbl hr hs ih =>
      obtain ⟨hstore, hcalls, hdone, hbusy⟩ := ih
        (fun i op hi => hD i op (List.mem_append_left _ hi))
        (fun i x y hx => hA i x y (by
          rw [events_append]
          exact List.mem_append_left _ hx))
      cases hs with
      | call j op' l' hj =>
          refine ⟨hstore, fun i x y hx => ?_, fun i op l es r l'' hl => ?_,
            fun i op l es p hi => ?_⟩
          · exact hcalls i x y (by simpa [events_append, events] using hx)
          · exact hdone i op l es r l'' (by simpa using hl)
          · rcases client_set hi with ⟨rfl, heq⟩ | hi
            · cases heq
              exact hbody _ _ (hD i op' (List.mem_append_right _ (List.mem_singleton_self _)))
            · exact hbusy i op l es p hi
      | act j op' l' es' p' q e hj ha =>
          have hevents : events (tr ++ [.event j e]) = events tr ++ [(j, e)] := by
            rw [events_append]
            rfl
          rw [hevents] at hA ⊢
          obtain ⟨hkeep, hrest, hcall⟩ := Prog.steady_act (hbusy j _ _ _ _ hj) ha hstore
            fun x y he => hA j x y (List.mem_append_right _ (by rw [he]; exact .head _))
          refine ⟨hkeep, fun i x y hx => ?_, fun i op l es r l'' hl => ?_,
            fun i op l es p hi => ?_⟩
          · rcases List.mem_append.mp hx with hx | hx
            · exact hcalls i x y hx
            · exact hcall x y (congrArg Prod.snd (List.mem_singleton.mp hx)).symm
          · exact hdone i op l es r l'' (by simpa using hl)
          · rcases client_set hi with ⟨rfl, heq⟩ | hi
            · cases heq
              exact hrest
            · exact hbusy i op l es p hi
      | retry j op' l' es' p' hj =>
          refine ⟨hstore, fun i x y hx => ?_, fun i op l es r l'' hl => ?_, hbusy⟩
          · exact hcalls i x y (by simpa [events_append, events] using hx)
          · exact hdone i op l es r l'' (by simpa using hl)
      | finish j op' l' es' r' l'' hj =>
          refine ⟨hstore, fun i x y hx => ?_, fun i op l es r l₁ hl => ?_,
            fun i op l es p hi => ?_⟩
          · exact hcalls i x y (by simpa [events_append, events] using hx)
          · rcases List.mem_append.mp hl with hl | hl
            · exact hdone i op l es r l₁ hl
            · cases List.mem_singleton.mp hl
              exact hbusy j _ _ _ _ hj
          · rcases client_set hi with ⟨rfl, heq⟩ | hi
            · cases heq
            · exact hbusy i op l es p hi

end Runs

end Interleaving
