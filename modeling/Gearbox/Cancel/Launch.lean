import Mathlib.Data.List.Induction
import Gearbox.Cancel.Watch
import Gearbox.Status.History

/-!
# Who launches a cancellation

A chain launches the cancellation after its `state(CANCELLING)` has returned `true`.
The transition from `cancelling` to itself is valid, so that is no proof that the chain
was the one to enter `cancelling`. As long as no chain runs a transaction on a
`cancelling` row unless it has entered that state itself, only the chain that entered it
sends cancellations to the children, and it runs the on-cancel job at most once
(`launchedOnce_of_exclusive`).
-/

namespace Gearbox

namespace Cancel

open Agents (Error EventStatus)
open Interleaving Status

/-- What a chain has done to the row: it is in a `cancelling` that it entered itself, and
may have run the on-cancel job there, or it is not. -/
inductive Phase where
  | out
  | entered (ran : Bool)
  deriving DecidableEq

/-- The states of a status that has finished or stopped. -/
def Finished (s : State) : Prop :=
  s = .completed ∨ s = .stopped ∨ s = .cancelling ∨ s = .cancelled

/-- Children are cancelled and the on-cancel job is run by chains that have entered
`cancelling`, the latter once; a chain that has entered leaves it with its next
transaction. -/
def launchMonitor : Monitor Row Answer Phase where
  next
    | _, .update _ post => if post.state = .cancelling then .entered false else .out
    | .entered _, .call .runOnCancel _ => .entered true
    | g, _ => g
  rely g r := Finished r.state ∧ ∀ ran, g = .entered ran → r.state = .cancelling
  guar g
    | .call (.postChild _) _ => ∃ ran, g = .entered ran
    | .call .runOnCancel _ => g = .entered false
    | .update pre post => (Finished pre.state → Finished post.state) ∧
        ∀ ran, g = .entered ran → post.state ≠ .cancelling
    | _ => True

theorem fetched_assign_state (r : Row) : (fetched.assign r).state = r.state := by
  simp [Handle.assign, Handle.superState, fetched]

theorem sync_assign_state (h : Handle) (r : Row) :
    ((h.superState .unknown).2.assign r).state = r.state := by
  simp [Handle.assign, Handle.superState]

/-- `state(s)` through a loaded handle whose cache admits `s` is one transaction. -/
theorem setState_of_valid {X : Type} {Y : X → Type} {h : Handle} {s : State}
    (hl : h.loaded = true) (hv : validStateTransition h.state s = true) :
    h.setState (Y := Y) s = .update (Handle.stateTx { h with state := s } s) fun r =>
      .ret (validStateTransition r.state s, { h with state := s }) := by
  have hload : (h.shouldLoad && !h.loaded) = false := by rw [hl, Bool.not_true,
    Bool.and_false]
  have hcache : h.superState s = (true, { h with state := s }) := if_pos hv
  unfold Handle.setState
  rw [hload]
  simp only [Bool.false_eq_true, if_false, Prog.pure_eq, Prog.ret_bind, hcache]
  rfl

/-- The job that is queued next fits the phase of the chain. -/
def Fits (g : Phase) : Job → Prop
  | .post state _ => state = some "CANCELLED" ∧ g = .out
  | .cancelwatch _ state => (state = "CANCELLING" ∧ g = .entered false) ∨
      (state = "CANCELLED" ∧ ∃ ran, g = .entered ran)
  | .ended => True
  | _ => g = .out

/-- What the handler of `job` promises of the phase. -/
def Settles (job : Job) (g : Phase) : Response → Prop
  | .success => True
  | .continue next => Fits g next
  | .retry => Fits g job

theorem wp_getState_launch {g : Phase} {Q : Phase → State × Handle → Prop}
    (hQ : ∀ r, launchMonitor.rely g r → Q g (r.state, fetched.assign r)) :
    (fetched.getState).wp launchMonitor Q g := by
  intro r hr
  refine ⟨trivial, ?_⟩
  have h := hQ r hr
  rwa [← fetched_assign_state r] at h

/-- `state(CANCELLING)` through a handle that has found the status stopped or
completed. -/
theorem wp_enter {s : Handle} (hl : s.loaded = true)
    (hs : s.state = .stopped ∨ s.state = .completed) :
    (s.setState .cancelling).wp launchMonitor (fun g p =>
      (p.1 = true → g = .entered false ∧ p.2.loaded = true ∧ p.2.state = .cancelling) ∧
        (p.1 = false → g = .out)) .out := by
  have hv : validStateTransition s.state .cancelling = true := by
    rcases hs with hs | hs <;> rw [hs] <;> rfl
  rw [setState_of_valid hl hv]
  rintro r ⟨hfin, -⟩
  by_cases hr : validStateTransition r.state .cancelling = true
  · have hpost : (Handle.stateTx { s with state := .cancelling } .cancelling r).state =
        .cancelling := by simp [Handle.stateTx, hr]
    refine ⟨⟨fun _ => ?_, fun ran hran => by cases hran⟩, ?_⟩
    · exact .inr (.inr (.inl hpost))
    · rw [Prog.wp_ret, hr]
      refine ⟨fun _ => ⟨?_, hl, rfl⟩, fun h => by cases h⟩
      simp only [launchMonitor, hpost, if_true]
  · have hpost : Handle.stateTx { s with state := .cancelling } .cancelling r = r := by
      simp [Handle.stateTx, hr]
    have hne : r.state ≠ .cancelling := by
      intro h
      rw [h] at hr
      exact hr rfl
    rw [hpost]
    refine ⟨⟨fun h => h, fun ran hran => by cases hran⟩, ?_⟩
    rw [Prog.wp_ret]
    simp [launchMonitor, hne, hr]

/-- The recovery of `do_pollstate`: `state(COMPLETED)` through the handle that has
entered `cancelling`. -/
theorem wp_recover {s : Handle} (hl : s.loaded = true) (hs : s.state = .cancelling)
    (g : Phase) :
    (s.setState .completed).wp launchMonitor (fun _ _ => True) g := by
  have hv : validStateTransition s.state .completed = true := by
    rw [hs]
    rfl
  rw [setState_of_valid hl hv]
  rintro r ⟨hfin, hent⟩
  refine ⟨?_, trivial⟩
  by_cases hr : validStateTransition r.state .completed = true
  · have hpost : (Handle.stateTx { s with state := .completed } .completed r).state =
        .completed := by simp [Handle.stateTx, hr]
    refine ⟨fun _ => .inl hpost, fun ran _ => ?_⟩
    rw [hpost]
    decide
  · have hpost : Handle.stateTx { s with state := .completed } .completed r = r := by
      simp [Handle.stateTx, hr]
    rw [hpost]
    refine ⟨fun h => h, fun ran hran => absurd ?_ hr⟩
    rw [hent ran hran]
    rfl

/-- A transaction of `end` on a `cancelling` row leaves that state. -/
theorem wp_end {h : Handle} {s : State} (hs : s = .completed ∨ s = .cancelled)
    (hh : h.state = s) (ran : Bool) {Q : Phase → Row → Prop} (hQ : ∀ r, Q .out r) :
    (Prog.transact (h.endTx s)).wp launchMonitor Q (.entered ran) := by
  rintro r ⟨-, hent⟩
  have hr : r.state = .cancelling := hent ran rfl
  have hpost : (h.endTx s r).state = s := by
    have hv : validStateTransition r.state s = true := by
      rw [hr]
      rcases hs with rfl | rfl <;> rfl
    simp [Handle.endTx, hv, hh]
  have hne : s ≠ .cancelling := by
    rcases hs with rfl | rfl <;> decide
  refine ⟨⟨fun _ => ?_, fun _ _ => ?_⟩, ?_⟩
  · rw [hpost]
    rcases hs with rfl | rfl
    · exact .inl rfl
    · exact .inr (.inr (.inr rfl))
  · rw [hpost]
    exact hne
  · rw [Prog.wp_ret]
    simp only [launchMonitor, hpost, if_neg hne]
    exact hQ r

/-- `end` by a chain that has entered `cancelling`, through a handle that loads the
row. -/
theorem wp_endWith_launch (h : Handle) (code : ℤ) {s : State}
    (hs : s = .completed ∨ s = .cancelled) (hload : h.loaded = true ∨ h = fetched)
    (ran : Bool) :
    (h.endWith code s).wp launchMonitor (fun g _ => g = .out) (.entered ran) := by
  have hread : Prog.wp launchMonitor (if !h.loaded then h.reallyLoad else h.sync)
      (fun g h' => g = .entered ran ∧ h'.state = .cancelling) (.entered ran) := by
    rcases hload with hl | rfl
    · rw [hl]
      rintro r ⟨-, hent⟩
      exact ⟨trivial, rfl, (sync_assign_state h r).trans (hent ran rfl)⟩
    · rintro r ⟨-, hent⟩
      exact ⟨trivial, rfl, (fetched_assign_state r).trans (hent ran rfl)⟩
  refine Prog.wp_bind _ (Prog.wp_mono _ ?_ hread)
  rintro _ h' ⟨rfl, hstate⟩
  have hv : validStateTransition h'.state s = true := by
    rw [hstate]
    rcases hs with rfl | rfl <;> rfl
  simp only [Handle.superState, hv, if_true, Bool.not_true, Bool.false_eq_true, if_false]
  refine Prog.wp_bind _ (wp_end hs (by rw [complete_state]) ran fun r => ?_)
  rfl

theorem wp_cancel_launch (ran : Bool) :
    (fetched.cancel).wp launchMonitor (fun g _ => g = .out) (.entered ran) := by
  refine Prog.wp_bind _ (wp_getState_launch fun r hr => ?_)
  have hstate : r.state = .cancelling := hr.2 ran rfl
  have hne : r.state ≠ .cancelled := by
    rw [hstate]
    decide
  dsimp only
  rw [if_pos hne]
  exact wp_endWith_launch _ _ (.inr rfl) (.inl rfl) ran

section Handlers

variable {E : Phase → Propagation.Thrown → Prop} {job : Job}

theorem wpE_attemptStatus_launch {p : Prog Row Answer (Except Thrown Unit × Handle)}
    {g : Phase} (hp : p.wp launchMonitor (fun g _ => g = .out) g)
    {Q : Phase → Handle → Prop} (hQ : ∀ h, Q .out h) (hE : ∀ g t, E g t) :
    Prog.wpE launchMonitor (attemptStatus p) Q E g := by
  refine wpE_attemptStatus (Prog.wp_mono _ ?_ hp)
  rintro _ r rfl
  exact ⟨fun _ => hQ r.2, fun _ => hE _⟩

theorem wpE_watchLoop_launch (watch : List String) (ran : Bool) (hE : ∀ g t, E g t) :
    Prog.wpE launchMonitor (watchLoop watch) (fun g _ => g = .entered ran) E
      (.entered ran) := by
  refine wpE_watchLoop (m := launchMonitor) (I := fun _ g => g = .entered ran)
    (fun _ _ _ _ _ => trivial) (fun _ _ _ _ _ => hE _ _) ?_ ?_ ?_ rfl
  · rintro uri rest _ s rfl _
    rfl
  · rintro uri rest _ s rfl _
    exact wpE_attemptStatus_launch (wp_endWith_launch fetched s.code (.inl rfl) (.inr rfl) ran)
      (fun _ => hE _ _) hE
  · rintro uri rest _ s rfl _
    rfl

theorem wpE_cancelStatus_launch (ran : Bool) (hE : ∀ g t, E g t) :
    Prog.wpE launchMonitor (cancelStatus fetched) (fun _ _ => True) E
      (.entered ran) := by
  refine Prog.wpE_bind fun _ => ⟨trivial, ?_⟩
  exact Prog.wpE_bind (wpE_attemptStatus_launch (wp_cancel_launch ran)
    (fun _ => Prog.wpE_pure trivial) hE)

theorem wpE_doCancelwatch_launch (watch : List String) {state : String} {ran : Bool}
    (hfits : Fits (.entered ran) (.cancelwatch watch state)) (hE : ∀ g t, E g t) :
    Prog.wpE launchMonitor (doCancelwatch watch state) (Settles job) E
      (.entered ran) := by
  refine Prog.wpE_bind (Prog.wpE_mono ?_ (fun _ _ h => h)
    (wpE_watchLoop_launch watch ran hE))
  rintro _ rest rfl
  have hcancel : Prog.wpE launchMonitor
      (do cancelStatus fetched; pure Response.success) (Settles job) E (.entered ran) :=
    Prog.wpE_bind (Prog.wpE_mono (fun _ _ _ => Prog.wpE_pure trivial)
      (fun _ _ h => h) (wpE_cancelStatus_launch ran hE))
  split
  · exact Prog.wpE_pure hfits
  · split
    · rename_i hstate
      refine Prog.wpE_bind fun registered => ⟨trivial, ?_⟩
      cases registered with
      | true =>
          refine Prog.wpE_bind (wpE_attempt fun y => ⟨trivial, ?_⟩)
          cases y with
          | error e => exact hE _ _
          | ok _ =>
              have hfresh : Phase.entered ran = .entered false := by
                rcases hfits with ⟨-, h⟩ | ⟨h, -⟩
                · exact h
                · rw [hstate] at h
                  exact absurd h (by decide)
              refine Prog.wpE_bind (wpE_attempt fun y => ⟨hfresh, ?_⟩)
              cases y with
              | error e => exact hE _ _
              | ok uri => exact Prog.wpE_pure (.inr ⟨rfl, _, rfl⟩)
      | false => exact hcancel
    · split
      · exact hcancel
      · exact Prog.wpE_pure trivial

theorem wpE_cancelChildren_launch (children : List String) (ran : Bool)
    (hE : ∀ g t, E g t) :
    Prog.wpE launchMonitor (cancelChildren children) (fun g _ => g = .entered ran) E
      (.entered ran) := by
  refine wpE_cancelChildren (I := fun _ g => g = .entered ran) ?_
    (fun _ _ _ _ _ => hE _ _) (fun _ _ _ _ _ _ => hE _ _) ?_ rfl
  · rintro watch child _ y rfl
    exact ⟨ran, rfl⟩
  · rintro watch child _ r rfl _
    rfl

theorem wpE_launch_launch (hE : ∀ g t, E g t) :
    Prog.wpE launchMonitor launch (Settles job) E (.entered false) := by
  refine Prog.wpE_bind fun children => ⟨trivial, ?_⟩
  refine Prog.wpE_bind (Prog.wpE_mono ?_ (fun _ _ h => h)
    (wpE_cancelChildren_launch children false hE))
  rintro _ watch rfl
  exact wpE_doCancelwatch_launch watch (.inl ⟨rfl, rfl⟩) hE

theorem wpE_doPollstate_launch (state : String) (nextState : Option String)
    (hjob : Fits .out job) :
    Prog.wpE launchMonitor (doPollstate state nextState) (Settles job)
      (fun _ _ => True) .out := by
  refine Prog.wpE_bind (Prog.wpE_lift (wp_getState_launch fun r hr => ?_))
  dsimp only
  split
  · exact Prog.wpE_pure trivial
  · split
    · rename_i hstopped
      cases nextState with
      | none => exact Prog.wpE_pure trivial
      | some next =>
          refine Prog.wpE_bind (wpE_attempt fun y => ⟨trivial, ?_⟩)
          cases y with
          | error e => trivial
          | ok _ =>
              dsimp only
              split
              · have hstate : (fetched.assign r).state = .stopped ∨
                    (fetched.assign r).state = .completed := by
                  rw [fetched_assign_state]
                  exact hstopped.2
                refine Prog.wpE_bind (Prog.wpE_lift (Prog.wp_mono _ ?_
                  (wp_enter rfl hstate)))
                rintro g ⟨changed, s⟩ ⟨htrue, hfalse⟩
                cases changed with
                | false =>
                    refine Prog.wpE_pure ?_
                    rw [hfalse rfl]
                    exact hjob
                | true =>
                    obtain ⟨rfl, hl, hs⟩ := htrue rfl
                    refine Prog.wpE_tryCatch (wpE_launch_launch fun g t => ?_)
                    cases t with
                    | error e =>
                        exact Prog.wpE_bind (Prog.wpE_lift (Prog.wp_mono _
                          (fun _ _ _ => Prog.wpE_throw trivial) (wp_recover hl hs g)))
                    | undefined => exact Prog.wpE_throw trivial
              · trivial
    · exact Prog.wpE_pure rfl

theorem wpE_doStop_launch (event : Option EventStatus) (hjob : Fits .out job) :
    Prog.wpE launchMonitor (doStop event) (Settles job) (fun _ _ => True) .out := by
  refine Prog.wpE_bind (Prog.wpE_mono ?_ (fun _ _ h => h)
    (wpE_checkEvent event fun _ => trivial))
  rintro _ _ rfl
  refine Prog.wpE_bind (wpE_attempt fun y => ⟨trivial, ?_⟩)
  cases y with
  | error e => trivial
  | ok _ =>
      refine Prog.wpE_bind (Prog.wpE_lift (wp_getState_launch fun r hr => ?_))
      have hdone : ¬ (r.state = .pending ∨ r.state = .running) := by
        rcases hr.1 with h | h | h | h <;> rw [h] <;> decide
      dsimp only
      rw [if_neg hdone]
      exact wpE_doPollstate_launch _ _ hjob

theorem wpE_doPost_launch (ytime : Option ℤ) (hjob : Fits .out job) :
    Prog.wpE launchMonitor (doPost (some "CANCELLED") ytime) (Settles job)
      (fun _ _ => True) .out := by
  refine Prog.wpE_bind (wpE_attempt fun y => ⟨trivial, ?_⟩)
  cases y with
  | error e => trivial
  | ok _ =>
      dsimp only
      rw [if_pos rfl]
      refine Prog.wpE_bind (Prog.wpE_lift (wp_getState_launch fun r hr => ?_))
      dsimp only
      split
      · exact Prog.wpE_pure trivial
      · split
        · exact Prog.wpE_throw trivial
        · refine Prog.wpE_bind fun registered => ⟨trivial, ?_⟩
          cases registered with
          | true => exact Prog.wpE_pure rfl
          | false => exact wpE_doStop_launch none hjob

end Handlers

theorem wpE_handler_launch (job : Job) (g : Phase) (hfits : Fits g job) :
    Prog.wpE launchMonitor (handler job) (Settles job) (fun _ _ => True) g := by
  cases job with
  | post state ytime =>
      obtain ⟨rfl, rfl⟩ := hfits
      exact wpE_doPost_launch ytime ⟨rfl, rfl⟩
  | precancel =>
      have hout : g = .out := hfits
      rw [hout]
      exact Prog.wpE_bind fun evt => ⟨trivial, rfl⟩
  | stop event =>
      have hout : g = .out := hfits
      rw [hout]
      exact wpE_doStop_launch event rfl
  | pollstate state nextState =>
      have hout : g = .out := hfits
      rw [hout]
      exact wpE_doPollstate_launch state nextState rfl
  | cancelwatch watch state =>
      have hent : ∃ ran, g = .entered ran := by
        rcases hfits with ⟨-, h⟩ | ⟨-, h⟩
        · exact ⟨_, h⟩
        · exact h
      obtain ⟨ran, rfl⟩ := hent
      exact wpE_doCancelwatch_launch watch hfits fun _ _ => trivial
  | ended => exact Prog.wpE_pure trivial

theorem wp_work_launch (job : Job) (g : Phase) (hfits : Fits g job) :
    (work () job).wp launchMonitor (fun g r => Fits g r.2) g := by
  refine Prog.wp_bind _ (Prog.wp_mono _ ?_ (wpE_handler_launch job g hfits))
  intro g r hr
  cases r with
  | error e => trivial
  | ok r =>
      cases r with
      | success => trivial
      | «continue» next => exact hr
      | retry => exact hr

section Runs

variable {ι : Type}

/-- The chain whose transaction has taken the row into `cancelling` last. -/
def lastEntry (evs : Trace ι) : Option ι :=
  evs.foldl (fun last ie =>
    match ie.2 with
    | .update pre post =>
        if pre.state ≠ .cancelling ∧ post.state = .cancelling then some ie.1 else last
    | _ => last) none

theorem lastEntry_snoc (evs : Trace ι) (i : ι) (e : Event Row Answer) :
    lastEntry (evs ++ [(i, e)]) =
      match e with
      | .update pre post =>
          if pre.state ≠ .cancelling ∧ post.state = .cancelling then some i
          else lastEntry evs
      | _ => lastEntry evs := by
  simp [lastEntry]

/-- No chain runs a transaction on a `cancelling` row unless it has taken the row
there. -/
def Exclusive (evs : Trace ι) (i : ι) : Event Row Answer → Prop
  | .update pre _ => pre.state = .cancelling → lastEntry evs = some i
  | _ => True

/-- A chain has entered `cancelling` exactly if the row is `cancelling`, and it is the
last one to have entered. -/
def Owned (evs : Trace ι) (s : Row) (γ : ι → Phase) : Prop :=
  Finished s.state ∧
    (∀ j ran, γ j = .entered ran → s.state = .cancelling ∧ lastEntry evs = some j) ∧
    (s.state = .cancelling → ∃ j ran, γ j = .entered ran)

/-- The chain that has entered `cancelling` last is the one that owns it. -/
theorem Owned.entered {evs : Trace ι} {s : Row} {γ : ι → Phase} {i : ι}
    (h : Owned evs s γ) (hs : s.state = .cancelling) (hi : lastEntry evs = some i) :
    ∃ ran, γ i = .entered ran := by
  obtain ⟨j, ran, hj⟩ := h.2.2 hs
  have hlast := (h.2.1 j ran hj).2
  rw [hi] at hlast
  cases hlast
  exact ⟨ran, hj⟩

variable [DecidableEq ι]

/-- Neither a read nor a call changes who owns `cancelling`. -/
theorem owned_of_same {evs : Trace ι} {s : Row} {γ : ι → Phase} {i : ι}
    {e : Event Row Answer} (h : Owned evs s γ)
    (hlast : lastEntry (evs ++ [(i, e)]) = lastEntry evs)
    (hnext : ∀ ran, launchMonitor.next (γ i) e = .entered ran → ∃ ran', γ i =
      .entered ran')
    (hback : ∀ ran, γ i = .entered ran → ∃ ran', launchMonitor.next (γ i) e =
      .entered ran') :
    Owned (evs ++ [(i, e)]) s
      (Function.update γ i (launchMonitor.next (γ i) e)) := by
  refine ⟨h.1, fun j ran hj => ?_, fun hs => ?_⟩
  · rw [hlast]
    by_cases hij : j = i
    · subst hij
      rw [Function.update_self] at hj
      obtain ⟨ran', hran'⟩ := hnext ran hj
      exact h.2.1 j ran' hran'
    · rw [Function.update_of_ne hij] at hj
      exact h.2.1 j ran hj
  · obtain ⟨j, ran, hj⟩ := h.2.2 hs
    by_cases hij : j = i
    · subst hij
      obtain ⟨ran', hran'⟩ := hback ran hj
      exact ⟨j, ran', by rw [Function.update_self, hran']⟩
    · exact ⟨j, ran, by rw [Function.update_of_ne hij, hj]⟩

/-- A transaction that meets a `cancelling` row is the owner's and leaves it; any other
one enters it or leaves it alone. -/
theorem owned_update {evs : Trace ι} {pre post : Row} {γ : ι → Phase} {i : ι}
    (h : Owned evs pre γ) (hC : Exclusive evs i (.update pre post))
    (hg : launchMonitor.guar (γ i) (.update pre post)) :
    Owned (evs ++ [(i, .update pre post)]) post
      (Function.update γ i (launchMonitor.next (γ i) (.update pre post))) := by
  have hothers : ∀ j, j ≠ i → ∀ ran, γ j ≠ .entered ran := by
    intro j hij ran hj
    obtain ⟨hs, hlast⟩ := h.2.1 j ran hj
    rw [hC hs] at hlast
    cases hlast
    exact hij rfl
  have hnext : launchMonitor.next (γ i) (.update pre post) =
      if post.state = .cancelling then .entered false else .out := by
    cases γ i <;> rfl
  refine ⟨hg.1 h.1, fun j ran hj => ?_, fun hs => ?_⟩
  · by_cases hij : j = i
    · subst hij
      rw [Function.update_self, hnext] at hj
      by_cases hpost : post.state = .cancelling
      · refine ⟨hpost, ?_⟩
        have hpre : pre.state ≠ .cancelling := by
          intro hs
          obtain ⟨ran', hran'⟩ := h.entered hs (hC hs)
          exact hg.2 ran' hran' hpost
        rw [lastEntry_snoc]
        exact if_pos ⟨hpre, hpost⟩
      · rw [if_neg hpost] at hj
        cases hj
    · rw [Function.update_of_ne hij] at hj
      exact absurd hj (hothers j hij ran)
  · exact ⟨i, false, by rw [Function.update_self, hnext, if_pos hs]⟩

theorem relyGuarantee_launch :
    RelyGuarantee (ι := ι) work launchMonitor Fits (fun _ _ g r => Fits g r.2)
      Owned Exclusive where
  body _ job g hfits := wp_work_launch job g hfits
  ready _ _ _ _ h := h
  rely evs s γ h i := ⟨h.1, fun ran hi => (h.2.1 i ran hi).1⟩
  step evs s γ i e h hat hC hg := by
    cases e with
    | read r =>
        refine owned_of_same h (lastEntry_snoc _ _ _) (fun ran hr => ⟨ran, ?_⟩)
          (fun ran hr => ⟨ran, ?_⟩)
        · cases hi : γ i <;> rw [hi] at hr <;> exact hr
        · rw [hr]
          rfl
    | update pre post =>
        have hpre : pre = s := hat
        subst hpre
        exact owned_update h hC hg
    | call x y =>
        refine owned_of_same h (lastEntry_snoc _ _ _) (fun ran hr => ?_)
          (fun ran hr => ?_)
        · cases hi : γ i with
          | entered ran' => exact ⟨ran', rfl⟩
          | out =>
              rw [hi] at hr
              have hout : launchMonitor.next .out (.call x y) = .out := by
                cases x <;> rfl
              rw [hout] at hr
              cases hr
        · rw [hr]
          cases x <;> exact ⟨_, rfl⟩

/-- A run of the on-cancel job. -/
def runsOnCancel (ie : ι × Event Row Answer) : Bool :=
  match ie.2 with
  | .call .runOnCancel _ => true
  | _ => false

/-- Between entering `cancelling` and leaving it, one chain only sends cancellations to
the children, and the on-cancel job is run at most once. -/
def LaunchedOnce (evs : Trace ι) : Prop :=
  ∀ pre i a b mid post, evs = pre ++ (i, .update a b) :: (mid ++ post) →
    a.state ≠ .cancelling → b.state = .cancelling →
    (∀ j a' b', (j, .update a' b') ∈ mid →
      a'.state = .cancelling ∧ b'.state = .cancelling) →
    (∀ j k x x' y y', (j, .call (.postChild x) y) ∈ mid →
      (k, .call (.postChild x') y') ∈ mid → j = k) ∧
    mid.countP runsOnCancel ≤ 1

/-- What holds in the middle of an episode that chain `i` has entered: it still owns
it, and `ran` says whether the on-cancel job has been run. -/
structure Episode (evs mid : Trace ι) (i : ι) : Prop where
  owner : lastEntry evs = some i
  phase : ∃ ran, ghost launchMonitor (fun _ => .out) evs i = .entered ran ∧
    mid.countP runsOnCancel = ran.toNat
  posts : ∀ j x y, (j, .call (.postChild x) y) ∈ mid → j = i

/-- An event that changes neither the row nor the phase of the owner. -/
theorem Episode.keep {evs mid : Trace ι} {i j : ι} {e : Event Row Answer}
    (h : Episode evs mid i) (hlast : lastEntry (evs ++ [(j, e)]) = lastEntry evs)
    (hnext : ∀ ran, launchMonitor.next (.entered ran) e = .entered ran)
    (hrun : runsOnCancel (j, e) = false)
    (hpost : ∀ x y, e = .call (.postChild x) y → j = i) :
    Episode (evs ++ [(j, e)]) (mid ++ [(j, e)]) i := by
  obtain ⟨ran, hran, hcount⟩ := h.phase
  refine ⟨hlast.trans h.owner, ⟨ran, ?_, ?_⟩, ?_⟩
  · rw [ghost_snoc]
    by_cases hij : i = j
    · subst hij
      rw [Function.update_self, hran, hnext]
    · rw [Function.update_of_ne hij, hran]
  · rw [List.countP_append, hcount]
    simp [hrun]
  · intro k x y hk
    rcases List.mem_append.1 hk with hk | hk
    · exact h.posts k x y hk
    · rw [List.mem_singleton, Prod.mk.injEq] at hk
      rw [hk.1]
      exact hpost x y hk.2.symm

/-- One more event in an episode. -/
theorem Episode.snoc {evs mid : Trace ι} {i j : ι} {e : Event Row Answer} {s : Row}
    (h : Episode evs mid i) (hat : e.At s)
    (hI : Owned evs s (ghost launchMonitor (fun _ => .out) evs))
    (hC : Exclusive evs j e)
    (hg : launchMonitor.guar (ghost launchMonitor (fun _ => .out) evs j) e)
    (hstay : ∀ a b, e = .update a b → a.state = .cancelling ∧ b.state = .cancelling) :
    Episode (evs ++ [(j, e)]) (mid ++ [(j, e)]) i := by
  have howner : ∀ ran, ghost launchMonitor (fun _ => .out) evs j = .entered ran →
      j = i := by
    intro ran hj
    have hlast := (hI.2.1 j ran hj).2
    rw [h.owner] at hlast
    cases hlast
    rfl
  cases e with
  | update a b =>
      -- the owner would leave the state, and nobody else may touch it
      obtain ⟨ha, hb⟩ := hstay a b rfl
      have hs : a = s := hat
      subst hs
      obtain ⟨ran, hran⟩ := hI.entered ha (hC ha)
      exact absurd hb (hg.2 ran hran)
  | read r =>
      exact h.keep (lastEntry_snoc evs j _) (fun _ => rfl) rfl fun _ _ he => by cases he
  | call x y =>
      have hlast := lastEntry_snoc evs j (.call x y)
      cases x with
      | runOnCancel =>
          have hij : j = i := howner false hg
          subst hij
          obtain ⟨ran, hran, hcount⟩ := h.phase
          have hfresh : Phase.entered ran = .entered false := hran.symm.trans hg
          cases hfresh
          refine ⟨hlast.trans h.owner, ⟨true, ?_, ?_⟩, ?_⟩
          · rw [ghost_snoc, Function.update_self, hran]
            rfl
          · rw [List.countP_append, hcount]
            rfl
          · intro k x y hk
            exact h.posts k x y (by simpa using hk)
      | postChild child =>
          obtain ⟨ran, hran⟩ := hg
          exact h.keep hlast (fun _ => rfl) rfl fun _ _ _ => howner ran hran
      | _ => exact h.keep hlast (fun _ => rfl) rfl fun _ _ he => by cases he

/-- For any number of requests to cancel a status that has finished or stopped, and any
interleaving of the jobs they cause: if no chain runs a transaction on a `cancelling`
row that another chain has taken there, the cancellation is launched at most once. -/
theorem launchedOnce_of_exclusive {c₀ c : Chains ι} {tr : List (Chains.Label ι)}
    (h₀ : ∀ i, ∃ ytime, c₀.client i = .idle (.post (some "CANCELLED") ytime))
    (hs₀ : c₀.store.state = .completed ∨ c₀.store.state = .stopped)
    (h : Run work c₀ tr c) (hC : Meets Exclusive (events tr)) :
    LaunchedOnce (events tr) := by
  have hinit : ∀ i, ∃ job, c₀.client i = .idle job ∧ Fits .out job := by
    intro i
    obtain ⟨ytime, hi⟩ := h₀ i
    exact ⟨_, hi, rfl, rfl⟩
  have hI₀ : Owned ([] : Trace ι) c₀.store (fun _ => .out) := by
    refine ⟨?_, fun j ran hj => (by cases hj), fun hs => ?_⟩
    · rcases hs₀ with h | h
      · exact .inl h
      · exact .inr (.inl h)
    · rcases hs₀ with h | h <;> rw [h] at hs <;> cases hs
  have hmeets := (Run.relyGuarantee relyGuarantee_launch hI₀ hinit h hC).2.2
  intro pre i a b mid post hevs ha hb hstay
  -- every prefix of the episode keeps `Episode`
  have hepisode : ∀ mid₁ mid₂, mid = mid₁ ++ mid₂ →
      Episode (pre ++ (i, .update a b) :: mid₁) mid₁ i := by
    intro mid₁
    induction mid₁ using List.reverseRecOn with
    | nil =>
        intro mid₂ _
        refine ⟨?_, ⟨false, ?_, rfl⟩, fun j x y hj => by cases hj⟩
        · rw [lastEntry_snoc]
          exact if_pos ⟨ha, hb⟩
        · rw [ghost_snoc, Function.update_self]
          cases ghost launchMonitor (fun _ => .out) pre i <;> exact if_pos hb
    | append_singleton mid₁ je ih =>
        intro mid₂ hmid
        obtain ⟨j, e⟩ := je
        have hprev := ih ((j, e) :: mid₂) (by rw [hmid]; simp)
        have hsplit : events tr = (pre ++ (i, .update a b) :: mid₁) ++
            (j, e) :: (mid₂ ++ post) := by
          rw [hevs, hmid]
          simp
        obtain ⟨hg, s, hat, hI⟩ := hmeets _ j e _ hsplit
        have hsnoc := hprev.snoc hat hI (hC _ j e _ hsplit) hg fun a' b' he =>
          hstay j a' b' (by rw [hmid, he]; simp)
        simpa using hsnoc
  have hlast := hepisode mid [] (by simp)
  refine ⟨fun j k x x' y y' hj hk => ?_, ?_⟩
  · rw [hlast.posts j x y hj, hlast.posts k x' y' hk]
  · obtain ⟨ran, -, hcount⟩ := hlast.phase
    rw [hcount]
    exact ran.toNat_le

end Runs

attribute [local instance] neZero_two

/-- A completed status and two requests to cancel it. -/
def requestedTwice : Chains (Fin 2) where
  store := completedStatus.store
  client _ := .idle (.post (some "CANCELLED") none)

/-- The row after a chain has entered `cancelling`. -/
def cancellingRow : Row := { completedStatus.store with state := .cancelling }

/-- A chain on its way from the request to `state(CANCELLING)`. -/
def approach (i : Fin 2) : List (Move (Fin 2) Answer Unit) :=
  [.call i (), .answer i (.respProgress 1) (.ok ()), .go i, .answer i .onPrecancel false,
   .answer i (.respProgress 10) (.ok ()), .go i, .go i,
   .answer i (.respProgress 40) (.ok ())]

/-- A chain sends the cancellation to the only child. -/
def cancelChild (i : Fin 2) : List (Move (Fin 2) Answer Unit) :=
  [.answer i .children ["child"],
   .answer i (.postChild "child") (.ok ⟨0, .fresh, "child-cancel"⟩)]

theorem launchedOnce_alone :
    ∃ tr c, Run work requestedTwice tr c ∧ c.store = cancellingRow ∧
      LaunchedOnce (events tr) := by
  have hrun : (scheduleAll work requestedTwice (approach 0 ++ .go 0 :: cancelChild 0)).map
      (fun p => (p.2.store, (events p.1).take 7, (events p.1).drop 7)) =
    some (cancellingRow,
      [(0, .call (.respProgress 1) (.ok ())), (0, .read completedStatus.store),
        (0, .call .onPrecancel false), (0, .call (.respProgress 10) (.ok ())),
        (0, .read completedStatus.store), (0, .read completedStatus.store),
        (0, .call (.respProgress 40) (.ok ()))],
      [(0, .update completedStatus.store cancellingRow), (0, .call .children ["child"]),
        (0, .call (.postChild "child") (.ok ⟨0, .fresh, "child-cancel"⟩))]) := by rfl
  obtain ⟨tr, c, hr, hf⟩ := exists_run_of_scheduleAll hrun
  simp only [Prod.mk.injEq] at hf
  obtain ⟨hstore, htake, hdrop⟩ := hf
  have hC : Meets Exclusive (events tr) := by
    intro pre i e post he
    cases e with
    | update a b =>
        have hmem : (i, .update a b) ∈ events tr := by rw [he]; simp
        rw [← List.take_append_drop 7 (events tr), htake, hdrop] at hmem
        have ha : a = completedStatus.store := by simp at hmem; exact hmem.2.1
        intro hs
        rw [ha] at hs
        cases hs
    | read r => trivial
    | call x y => trivial
  exact ⟨tr, c, hr, hstore,
    launchedOnce_of_exclusive (fun _ => ⟨_, rfl⟩) (.inl rfl) hr hC⟩

/-- What both chains do when they find the status completed before either of them has
entered `cancelling`. -/
def bothLaunch : Trace (Fin 2) :=
  [(1, .update cancellingRow cancellingRow), (0, .call .children ["child"]),
   (0, .call (.postChild "child") (.ok ⟨0, .fresh, "child-cancel"⟩)),
   (1, .call .children ["child"]),
   (1, .call (.postChild "child") (.ok ⟨0, .fresh, "child-cancel"⟩))]

theorem not_launchedOnce :
    ¬ ∀ (tr : List (Chains.Label (Fin 2))) (c : Chains (Fin 2)),
      Run work requestedTwice tr c → LaunchedOnce (events tr) := by
  intro hall
  have hrun : (scheduleAll work requestedTwice (approach 0 ++ approach 1 ++
      .go 0 :: .go 1 :: cancelChild 0 ++ cancelChild 1)).map
        (fun p => (events p.1).drop 14) =
    some ((0, .update completedStatus.store cancellingRow) :: bothLaunch) := by rfl
  obtain ⟨tr, c, hr, hdrop⟩ := exists_run_of_scheduleAll hrun
  have hsplit : events tr = (events tr).take 14 ++
      (0, .update completedStatus.store cancellingRow) :: (bothLaunch ++ []) := by
    rw [List.append_nil, ← hdrop, List.take_append_drop]
  have hstay : ∀ j a b, (j, .update a b) ∈ bothLaunch →
      a.state = .cancelling ∧ b.state = .cancelling := by
    intro j a b hmem
    simp only [bothLaunch, List.mem_cons, Prod.mk.injEq, Event.update.injEq,
      reduceCtorEq, and_false, List.not_mem_nil, or_false] at hmem
    rw [hmem.2.1, hmem.2.2]
    exact ⟨rfl, rfl⟩
  have honce := (hall tr c hr _ 0 _ _ _ [] hsplit (by decide) rfl hstay).1
  have hsame := honce 0 1 "child" "child" _ _ (.tail _ (.tail _ (.head _)))
    (.tail _ (.tail _ (.tail _ (.tail _ (.head _)))))
  cases hsame

end Cancel

end Gearbox
