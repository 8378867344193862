import Mathlib.Algebra.GroupWithZero.Nat
import Mathlib.Logic.Function.Basic
import Gearbox.Interleaving.Prog

/-!
# Interleavings of clients

A `Config` is a store together with one client for every index in `ι`, so the
number of clients is arbitrary. A client is idle with a local state, or it is in
the middle of a call: it keeps the local state it was called with, the events it
has performed so far and the rest of its program. A step of the system starts a
call, performs one action of one client, tries an action in vain, or ends a
call; `Run` is the reflexive transitive closure with the labels of the steps.

The rule for whole runs is `Run.relyGuarantee`: if every body keeps a monitor,
and a global invariant of store and ghost states supplies what the monitor
relies on and is kept by every guaranteed event, then the invariant holds after
every run. Runs may be restricted by a condition `C` on their events; the rule
then hands `C` to the invariant's step. `schedule` executes a system along a
given list of moves, so that concrete runs are found by evaluation.
-/

namespace Interleaving

/-- One client: idle with its local state, or busy with the call `op` that it
entered with the local state `l₀`, after the events `es` and before `p`. -/
inductive Client (S : Type) {X : Type} (Y : X → Type) (L Op Res : Type) where
  | idle (l : L)
  | busy (op : Op) (l₀ : L) (es : List (Event S Y)) (p : Prog S Y (Res × L))

/-- A store and its clients. -/
structure Config (ι S : Type) {X : Type} (Y : X → Type) (L Op Res : Type) where
  store : S
  client : ι → Client S Y L Op Res

/-- What one step of the system did. -/
inductive Label (ι S : Type) {X : Type} (Y : X → Type) (L Op Res : Type) where
  | call (i : ι) (op : Op)
  | event (i : ι) (e : Event S Y)
  | retry (i : ι)
  | finish (i : ι) (op : Op) (l₀ : L) (es : List (Event S Y)) (r : Res) (l : L)

section System

variable {ι S X : Type} {Y : X → Type} {L Op Res : Type}

/-- The events of a run, each with the client that performed it. -/
def events : List (Label ι S Y L Op Res) → List (ι × Event S Y)
  | [] => []
  | .event i e :: tr => (i, e) :: events tr
  | _ :: tr => events tr

theorem events_append (tr tr' : List (Label ι S Y L Op Res)) :
    events (tr ++ tr') = events tr ++ events tr' := by
  induction tr with
  | nil => rfl
  | cons l tr ih => cases l <;> simp [events, ih]

/-- Every event of the run meets `C`, a condition on the events before it, the
client and the event. -/
def Meets (C : List (ι × Event S Y) → ι → Event S Y → Prop)
    (evs : List (ι × Event S Y)) : Prop :=
  ∀ pre i e post, evs = pre ++ (i, e) :: post → C pre i e

theorem Meets.append_left
    {C : List (ι × Event S Y) → ι → Event S Y → Prop}
    {evs evs' : List (ι × Event S Y)} (h : Meets C (evs ++ evs')) :
    Meets C evs := by
  intro pre i e post he
  refine h pre i e (post ++ evs') ?_
  rw [he, List.append_assoc, List.cons_append]

theorem Meets.snoc {C : List (ι × Event S Y) → ι → Event S Y → Prop}
    {evs : List (ι × Event S Y)} {i : ι} {e : Event S Y} (h : Meets C evs)
    (he : C evs i e) : Meets C (evs ++ [(i, e)]) := by
  intro pre j e' post heq
  rcases List.eq_nil_or_concat post with rfl | ⟨post, x, rfl⟩
  · obtain ⟨hpre, hlast⟩ := List.append_inj' heq rfl
    cases hlast
    rw [← hpre]
    exact he
  · rw [List.concat_eq_append, ← List.cons_append, ← List.append_assoc] at heq
    exact h pre j e' post (List.append_inj' heq rfl).1

variable [DecidableEq ι]

def Config.set (c : Config ι S Y L Op Res) (i : ι)
    (a : Client S Y L Op Res) : Config ι S Y L Op Res :=
  { c with client := Function.update c.client i a }

/-- One step of a system whose calls run the programs `body`. A statement or
transaction that fails is rolled back and tried again, which is `retry`. -/
inductive Step (body : Op → L → Prog S Y (Res × L)) :
    Config ι S Y L Op Res → Label ι S Y L Op Res → Config ι S Y L Op Res → Prop
  | call (c : Config ι S Y L Op Res) (i : ι) (op : Op) (l : L)
      (h : c.client i = .idle l) :
      Step body c (.call i op) (c.set i (.busy op l [] (body op l)))
  | act (c : Config ι S Y L Op Res) (i : ι) (op : Op) (l : L)
      (es : List (Event S Y)) (p q : Prog S Y (Res × L)) (e : Event S Y)
      (h : c.client i = .busy op l es p) (ha : p.Act c.store e q) :
      Step body c (.event i e)
        ⟨e.after c.store, (c.set i (.busy op l (es ++ [e]) q)).client⟩
  | retry (c : Config ι S Y L Op Res) (i : ι) (op : Op) (l : L)
      (es : List (Event S Y)) (p : Prog S Y (Res × L))
      (h : c.client i = .busy op l es p) : Step body c (.retry i) c
  | finish (c : Config ι S Y L Op Res) (i : ι) (op : Op) (l : L)
      (es : List (Event S Y)) (r : Res) (l' : L)
      (h : c.client i = .busy op l es (.ret (r, l'))) :
      Step body c (.finish i op l es r l') (c.set i (.idle l'))

/-- The runs of a system from `c₀`, with the labels of their steps. -/
inductive Run (body : Op → L → Prog S Y (Res × L)) (c₀ : Config ι S Y L Op Res) :
    List (Label ι S Y L Op Res) → Config ι S Y L Op Res → Prop
  | nil : Run body c₀ [] c₀
  | snoc {tr : List (Label ι S Y L Op Res)} {c c' : Config ι S Y L Op Res}
      {l : Label ι S Y L Op Res} (h : Run body c₀ tr c) (hs : Step body c l c') :
      Run body c₀ (tr ++ [l]) c'

/-- Every client is between two calls. -/
def Config.AtRest (c : Config ι S Y L Op Res) : Prop :=
  ∀ i, ∃ l, c.client i = .idle l

variable {body : Op → L → Prog S Y (Res × L)} {c₀ c : Config ι S Y L Op Res}
  {tr : List (Label ι S Y L Op Res)}

theorem Run.cons {c₁ : Config ι S Y L Op Res} {l : Label ι S Y L Op Res}
    (hs : Step body c₀ l c₁) (h : Run body c₁ tr c) :
    Run body c₀ (l :: tr) c := by
  induction h with
  | nil => exact .snoc .nil hs
  | snoc _ hs' ih => exact .snoc ih hs'

theorem Run.append {c' : Config ι S Y L Op Res} {tr' : List (Label ι S Y L Op Res)}
    (h : Run body c₀ tr c) (h' : Run body c tr' c') :
    Run body c₀ (tr ++ tr') c' := by
  induction h' with
  | nil => simpa using h
  | snoc _ hs ih =>
      rw [← List.append_assoc]
      exact .snoc ih hs

/-- The store changes only by an event, and then as the event says. -/
theorem Step.store {c' : Config ι S Y L Op Res} {l : Label ι S Y L Op Res}
    (h : Step body c l c') :
    (∃ i e, l = .event i e ∧ e.At c.store ∧ c'.store = e.after c.store) ∨
      c'.store = c.store := by
  cases h with
  | call => exact .inr rfl
  | act i op l es p q e _ ha => exact .inl ⟨i, e, rfl, ha.at, rfl⟩
  | retry => exact .inr rfl
  | finish => exact .inr rfl

/-- A client after `set` is the one that was set, or an old one. -/
theorem client_set {i j : ι} {a b : Client S Y L Op Res}
    (h : (c.set j a).client i = b) : (i = j ∧ a = b) ∨ c.client i = b := by
  by_cases hij : i = j
  · subst hij
    exact .inl ⟨rfl, by simpa [Config.set] using h⟩
  · exact .inr (by simpa [Config.set, Function.update_of_ne hij] using h)

/-- A client in the middle of a call has performed the events it has recorded,
and what is left of its program is what they lead to. -/
theorem Run.leads (h₀ : c₀.AtRest) (h : Run body c₀ tr c) (i : ι) (op : Op)
    (l : L) (es : List (Event S Y)) (p : Prog S Y (Res × L))
    (hi : c.client i = .busy op l es p) : (body op l).Leads es p := by
  induction h generalizing i op l es p with
  | nil =>
      obtain ⟨l', hl'⟩ := h₀ i
      rw [hl'] at hi
      cases hi
  | snoc _ hs ih =>
      cases hs with
      | call j op' l' hj =>
          rcases client_set hi with ⟨rfl, heq⟩ | hi
          · cases heq
            exact .refl _
          · exact ih i op l es p hi
      | act j op' l' es' p' q e hj ha =>
          rcases client_set hi with ⟨rfl, heq⟩ | hi
          · cases heq
            exact (ih i _ _ _ _ hj).snoc ha
          · exact ih i op l es p hi
      | retry j op' l' es' p' hj => exact ih i op l es p hi
      | finish j op' l' es' r l'' hj =>
          rcases client_set hi with ⟨rfl, heq⟩ | hi
          · cases heq
          · exact ih i op l es p hi

/-- A call that has ended ran its body to the recorded result. -/
theorem Run.finished (h₀ : c₀.AtRest) (h : Run body c₀ tr c) {i : ι} {op : Op}
    {l l' : L} {es : List (Event S Y)} {r : Res}
    (hf : .finish i op l es r l' ∈ tr) : (body op l).Runs es (r, l') := by
  induction h with
  | nil => cases hf
  | snoc hr hs ih =>
      rcases List.mem_append.1 hf with hf | hf
      · exact ih hf
      · rw [List.mem_singleton] at hf
        subst hf
        cases hs with
        | finish _ _ _ _ _ _ hi => exact hr.leads h₀ i op l es _ hi

/-- The ghost states after a list of events. -/
def ghost {G : Type} (m : Monitor S Y G) (g₀ : ι → G)
    (evs : List (ι × Event S Y)) : ι → G :=
  evs.foldl (fun γ ie => Function.update γ ie.1 (m.next (γ ie.1) ie.2)) g₀

@[simp] theorem ghost_nil {G : Type} (m : Monitor S Y G) (g₀ : ι → G) :
    ghost m g₀ [] = g₀ := rfl

theorem ghost_snoc {G : Type} (m : Monitor S Y G) (g₀ : ι → G)
    (evs : List (ι × Event S Y)) (i : ι) (e : Event S Y) :
    ghost m g₀ (evs ++ [(i, e)]) =
      Function.update (ghost m g₀ evs) i (m.next (ghost m g₀ evs i) e) := by
  simp [ghost]

/-- What a monitor knows of one client: `ready` between two calls, and in the middle
of a call that its program will establish `post`. -/
def Client.Keeps {G : Type} (m : Monitor S Y G) (ready : G → L → Prop)
    (post : Op → L → G → Res × L → Prop) (g : G) : Client S Y L Op Res → Prop
  | .idle l => ready g l
  | .busy op l₀ _ p => p.wp m (post op l₀) g

/-- The assumptions of the rule for whole runs: every body keeps the monitor `m` and
leads from `ready` to `post`, which is `ready` for the next call; the global invariant
`I` supplies what `m` relies on, and every guaranteed event that meets `C` keeps
`I`. -/
structure RelyGuarantee {G : Type} (body : Op → L → Prog S Y (Res × L))
    (m : Monitor S Y G) (ready : G → L → Prop) (post : Op → L → G → Res × L → Prop)
    (I : List (ι × Event S Y) → S → (ι → G) → Prop)
    (C : List (ι × Event S Y) → ι → Event S Y → Prop) : Prop where
  body : ∀ op l g, ready g l → (body op l).wp m (post op l) g
  ready : ∀ op l g r, post op l g r → ready g r.2
  rely : ∀ evs s γ, I evs s γ → ∀ i, m.rely (γ i) s
  step : ∀ evs s γ i e, I evs s γ → e.At s → C evs i e → m.guar (γ i) e →
    I (evs ++ [(i, e)]) (e.after s) (Function.update γ i (m.next (γ i) e))

theorem keeps_update {G : Type} {m : Monitor S Y G} {ready : G → L → Prop}
    {post : Op → L → G → Res × L → Prop} {γ : ι → G} {i : ι} {g : G}
    {a : Client S Y L Op Res} (hk : ∀ j, (c.client j).Keeps m ready post (γ j))
    (ha : a.Keeps m ready post g) (j : ι) :
    ((c.set i a).client j).Keeps m ready post (Function.update γ i g j) := by
  by_cases hij : j = i
  · subst hij
    simpa [Config.set] using ha
  · simpa [Config.set, Function.update_of_ne hij] using hk j

/-- The rule for whole runs: the global invariant holds after every run that
meets the condition, and every event of it was guaranteed when it happened, in a
state that satisfied the invariant. -/
theorem Run.relyGuarantee {G : Type} {m : Monitor S Y G} {ready : G → L → Prop}
    {post : Op → L → G → Res × L → Prop}
    {I : List (ι × Event S Y) → S → (ι → G) → Prop}
    {C : List (ι × Event S Y) → ι → Event S Y → Prop} {g : ι → G}
    (hrg : RelyGuarantee body m ready post I C) (hI₀ : I [] c₀.store g)
    (h₀ : ∀ i, ∃ l, c₀.client i = .idle l ∧ ready (g i) l)
    (h : Run body c₀ tr c) (hC : Meets C (events tr)) :
    I (events tr) c.store (ghost m g (events tr)) ∧
      (∀ i, (c.client i).Keeps m ready post (ghost m g (events tr) i)) ∧
      Meets (fun pre i e => m.guar (ghost m g pre i) e ∧
        ∃ s, e.At s ∧ I pre s (ghost m g pre)) (events tr) := by
  induction h with
  | nil =>
      refine ⟨hI₀, ?_, ?_⟩
      · intro i
        obtain ⟨l, hl, hr⟩ := h₀ i
        simpa [events, Client.Keeps, hl] using hr
      · intro pre i e post he
        simp [events] at he
  | @snoc tr c c' l hr hs ih =>
      rw [events_append] at hC ⊢
      obtain ⟨hI, hk, hm⟩ := ih hC.append_left
      -- only an action moves the ghost states; the other steps keep them
      cases hs with
      | call i op l hi =>
          have ha := hk i
          rw [hi] at ha
          simp only [events, List.append_nil]
          refine ⟨hI, fun j => ?_, hm⟩
          simpa using keeps_update (i := i) (a := .busy op l [] (body op l)) hk
            (hrg.body op l _ ha) j
      | act i op l es p q e hi ha =>
          have hwp := hk i
          rw [hi] at hwp
          obtain ⟨hg, hq⟩ := Prog.wp_act hwp (hrg.rely _ _ _ hI i) ha
          simp only [events] at hC ⊢
          rw [ghost_snoc]
          refine ⟨hrg.step _ _ _ _ _ hI ha.at (hC _ _ _ [] rfl) hg,
            keeps_update (a := .busy op l (es ++ [e]) q) hk hq, ?_⟩
          exact hm.snoc ⟨hg, c.store, ha.at, hI⟩
      | retry i op l es p hi => simpa [events] using ⟨hI, hk, hm⟩
      | finish i op l es r l' hi =>
          have ha := hk i
          rw [hi] at ha
          simp only [events, List.append_nil]
          refine ⟨hI, fun j => ?_, hm⟩
          simpa using keeps_update (i := i) (a := .idle l') hk
            (hrg.ready op l _ (r, l') ha) j

end System

/-- One move of a scheduler: start a call, let a client perform its next read or
transaction, answer a client's call, or end a call. -/
inductive Move (ι : Type) {X : Type} (Y : X → Type) (Op : Type) where
  | call (i : ι) (op : Op)
  | go (i : ι)
  | answer (i : ι) (x : X) (y : Y x)
  | finish (i : ι)

section Schedule

variable {ι S X : Type} {Y : X → Type} {L Op Res : Type} [DecidableEq ι]
  [DecidableEq X]

/-- The step a move asks for, if it is possible. -/
def schedule (body : Op → L → Prog S Y (Res × L)) (c : Config ι S Y L Op Res) :
    Move ι Y Op → Option (Label ι S Y L Op Res × Config ι S Y L Op Res)
  | .call i op =>
      match c.client i with
      | .idle l => some (.call i op, c.set i (.busy op l [] (body op l)))
      | _ => none
  | .go i =>
      match c.client i with
      | .busy op l es (.read k) => some (.event i (.read c.store),
          c.set i (.busy op l (es ++ [.read c.store]) (k c.store)))
      | .busy op l es (.update f k) => some (.event i (.update c.store (f c.store)),
          ⟨f c.store, (c.set i (.busy op l
            (es ++ [.update c.store (f c.store)]) (k c.store))).client⟩)
      | _ => none
  | .answer i x y =>
      match c.client i with
      | .busy op l es (.call x' k) =>
          if h : x = x' then
            some (.event i (.call x' (h ▸ y)),
              c.set i (.busy op l (es ++ [.call x' (h ▸ y)]) (k (h ▸ y))))
          else none
      | _ => none
  | .finish i =>
      match c.client i with
      | .busy op l es (.ret (r, l')) =>
          some (.finish i op l es r l', c.set i (.idle l'))
      | _ => none

/-- The run along a list of moves, if every move is possible. -/
def scheduleAll (body : Op → L → Prog S Y (Res × L)) :
    Config ι S Y L Op Res → List (Move ι Y Op) →
      Option (List (Label ι S Y L Op Res) × Config ι S Y L Op Res)
  | c, [] => some ([], c)
  | c, mv :: mvs =>
      match schedule body c mv with
      | none => none
      | some (l, c') =>
          match scheduleAll body c' mvs with
          | none => none
          | some (tr, c'') => some (l :: tr, c'')

theorem step_of_schedule {body : Op → L → Prog S Y (Res × L)}
    {c c' : Config ι S Y L Op Res} {mv : Move ι Y Op}
    {l : Label ι S Y L Op Res} (h : schedule body c mv = some (l, c')) :
    Step body c l c' := by
  cases mv with
  | call i op =>
      simp only [schedule] at h
      split at h
      · rename_i l' hi
        cases h
        exact .call c i op l' hi
      · cases h
  | go i =>
      simp only [schedule] at h
      split at h
      · rename_i op l' es k hi
        cases h
        exact .act c i op l' es _ _ _ hi (.read k c.store)
      · rename_i op l' es f k hi
        cases h
        exact .act c i op l' es _ _ _ hi (.update f k c.store)
      · cases h
  | answer i x y =>
      simp only [schedule] at h
      split at h
      · rename_i op l' es x' k hi
        split at h
        · rename_i hx
          subst hx
          cases h
          exact .act c i op l' es _ _ _ hi (.call x k c.store y)
        · cases h
      · cases h
  | finish i =>
      simp only [schedule] at h
      split at h
      · rename_i op l' es r l'' hi
        cases h
        exact .finish c i op l' es r l'' hi
      · cases h

/-- What the scheduler executes is a run. -/
theorem run_of_scheduleAll {body : Op → L → Prog S Y (Res × L)}
    {c c' : Config ι S Y L Op Res} {mvs : List (Move ι Y Op)}
    {tr : List (Label ι S Y L Op Res)}
    (h : scheduleAll body c mvs = some (tr, c')) : Run body c tr c' := by
  induction mvs generalizing c tr with
  | nil =>
      cases h
      exact .nil
  | cons mv mvs ih =>
      simp only [scheduleAll] at h
      split at h
      · cases h
      · rename_i l c₁ hs
        split at h
        · cases h
        · rename_i tr' c₂ ht
          cases h
          exact .cons (step_of_schedule hs) (ih ht)

/-- A run found by evaluation, together with what was evaluated of it. -/
theorem exists_run_of_scheduleAll {body : Op → L → Prog S Y (Res × L)}
    {c : Config ι S Y L Op Res} {mvs : List (Move ι Y Op)} {β : Type}
    {f : List (Label ι S Y L Op Res) × Config ι S Y L Op Res → β} {b : β}
    (h : (scheduleAll body c mvs).map f = some b) :
    ∃ tr c', Run body c tr c' ∧ f (tr, c') = b := by
  obtain ⟨⟨tr, c'⟩, hs, hf⟩ := Option.map_eq_some_iff.1 h
  exact ⟨tr, c', run_of_scheduleAll hs, hf⟩

end Schedule

/-- The fact behind the numerals `0` and `1` for two clients. -/
theorem neZero_two : NeZero 2 :=
  ⟨Nat.succ_ne_zero 1⟩

end Interleaving
