import Gearbox.Status.Writes

/-!
# The persisted state moves along valid transitions

`legalMonitor` asks of every transaction that it leaves the state column alone or
moves it along `validStateTransition` to a state other than `unknown`. The programs
of all calls keep it, whatever the handle has cached, and so does every interleaving
of them.
-/

namespace Gearbox

namespace Status

open Interleaving

/-- The state column stays, or it makes a valid transition that does not end in
`unknown`. -/
def LegalChange (pre post : Row) : Prop :=
  post.state = pre.state ∨
    (validStateTransition pre.state post.state = true ∧ post.state ≠ .unknown)

theorem LegalChange.valid {pre post : Row} (h : LegalChange pre post) :
    validStateTransition pre.state post.state = true := by
  rcases h with h | h
  · simp [h]
  · exact h.1

theorem LegalChange.cancelled {pre post : Row} (h : LegalChange pre post)
    (hpre : pre.state = .cancelled) : post.state = .cancelled := by
  rcases h with h | ⟨h, hne⟩
  · exact h.trans hpre
  · rw [hpre] at h
    exact eq_cancelled_of_validStateTransition hne h

/-- The monitor that asks for legal changes only; it has no ghost state. -/
def legalMonitor {X : Type} (Y : X → Type) : Monitor Row Y Unit where
  next _ _ := ()
  rely _ _ := True
  guar _
    | .update pre post => LegalChange pre post
    | _ => True

theorem Moves.legal {s : State} (hs : s ≠ .unknown) {pre post : Row}
    (h : Moves s pre post) : LegalChange pre post := by
  rcases h with h | ⟨hv, h⟩
  · exact .inl h
  · exact .inr ⟨by rw [h, hv], by rw [h]; exact hs⟩

theorem wp_legal_of_within {X : Type} {Y : X → Type} {α : Type} {p : Prog Row Y α}
    {s : State} (hs : s ≠ .unknown) (hp : p.Within (Moves s)) :
    p.wp (legalMonitor Y) (fun _ _ => True) () :=
  Prog.wp_of_within (fun _ _ _ _ => ⟨trivial, trivial⟩)
    (fun _ _ _ _ _ hm => ⟨hm.legal hs, trivial⟩) hp trivial

theorem wp_run_legal (op : Op) (h : Handle) :
    (run op h).wp (legalMonitor _) (fun _ _ => True) () := by
  have hdone : (.completed : State) ≠ .unknown := by decide
  have hcancelled : (.cancelled : State) ≠ .unknown := by decide
  have hstopped : (.stopped : State) ≠ .unknown := by decide
  cases op with
  | state s hs => exact Prog.wp_bind _ (wp_legal_of_within hs (within_setState h s))
  | success =>
      exact Prog.wp_bind _ (wp_legal_of_within hdone (within_endWith h 0 _))
  | fail code =>
      exact Prog.wp_bind _ (wp_legal_of_within hdone (within_endWith h code _))
  | cancel => exact Prog.wp_bind _ (wp_legal_of_within hcancelled (within_cancel h))
  | checkpoint =>
      exact Prog.wp_bind _ (wp_legal_of_within hstopped (within_checkpoint h))
  | sync =>
      exact Prog.wp_bind _ (wp_legal_of_within hstopped (within_reallyLoad _))

theorem relyGuarantee_legal {ι : Type} [DecidableEq ι] :
    RelyGuarantee (ι := ι) run (legalMonitor _) (fun _ _ => True)
      (fun _ _ _ _ => True) (fun _ _ _ => True) (fun _ _ _ => True) where
  body op l _ _ := wp_run_legal op l
  ready _ _ _ _ _ := trivial
  rely _ _ _ _ _ := trivial
  step _ _ _ _ _ _ _ _ _ := trivial

/-- One step of any interleaving changes the state column legally. -/
theorem legalChange_step {ι : Type} [DecidableEq ι] {c₀ c c' : Database ι}
    {tr : List (Database.Label ι)}
    {l : Database.Label ι}
    (h₀ : c₀.AtRest) (h : Run run c₀ tr c) (hs : Step run c l c') :
    LegalChange c.store c'.store := by
  have hinit : ∀ i, ∃ l, c₀.client i = .idle l ∧ True := by
    simpa [Config.AtRest] using h₀
  have hguar := (Run.relyGuarantee (g := fun _ => ()) relyGuarantee_legal trivial
    hinit (h.snoc hs) (fun _ _ _ _ _ => trivial)).2.2
  rcases hs.store with ⟨i, e, rfl, hat, hafter⟩ | hsame
  · have he := (hguar (events tr) i e [] (by rw [events_append]; rfl)).1
    rw [hafter]
    cases e with
    | read s => exact .inl rfl
    | update pre post =>
        cases hat
        exact he
    | call x y => exact .inl rfl
  · exact .inl (by rw [hsame])

/-- In every interleaving of calls through any number of handles, whatever they
have cached, each step moves the persisted state along a valid transition, and
once the persisted state is `cancelled` it stays `cancelled`. -/
theorem persistedState_valid {ι : Type} [DecidableEq ι] {c₀ c : Database ι}
    {tr : List (Database.Label ι)}
    (h₀ : c₀.AtRest) (h : Run run c₀ tr c) :
    (∀ l c', Step run c l c' →
      validStateTransition c.store.state c'.store.state = true) ∧
    (c.store.state = .cancelled → ∀ tr' c', Run run c tr' c' →
      c'.store.state = .cancelled) := by
  constructor
  · intro l c' hs
    exact (legalChange_step h₀ h hs).valid
  · intro hc tr' c' h'
    induction h' with
    | nil => exact hc
    | snoc hr hs ih => exact (legalChange_step h₀ (h.append hr) hs).cancelled ih

attribute [local instance] neZero_two

/-- A row that was just inserted and two handles that have been fetched for it. -/
def freshDatabase : Database (Fin 2) where
  store := { state := .pending, progress := 0, code := -1, ytime := -1,
             failures := 0, concurrency := 0 }
  client _ := .idle { shouldLoad := true }

/-- One handle loads the pending row, the other one starts the job, and the first
one then cancels from its stale cache and is refused. -/
def staleCancel : List (Move (Fin 2) (X := Empty) (fun _ => Unit) Op) :=
  [.call 0 .sync, .go 0, .finish 0,
   .call 1 (.state .running (by decide)), .go 1, .go 1, .finish 1,
   .call 0 (.state .cancelled (by decide)), .go 0, .finish 0]

theorem persistedState_valid_staleCancel :
    ∃ tr c, Run run freshDatabase tr c ∧ c.store.state = .running ∧
      ∀ l c', Step run c l c' →
        validStateTransition .running c'.store.state = true := by
  have hrun : (scheduleAll run freshDatabase staleCancel).map
      (fun p => p.2.store.state) = some .running := by rfl
  obtain ⟨tr, c, hr, hstate⟩ := exists_run_of_scheduleAll hrun
  refine ⟨tr, c, hr, hstate, ?_⟩
  intro l c' hs
  have h := (persistedState_valid (fun i => ⟨_, rfl⟩) hr).1 l c' hs
  rwa [show c.store.state = .running from hstate] at h

end Status

end Gearbox
