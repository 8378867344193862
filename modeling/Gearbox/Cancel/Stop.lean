import Gearbox.Cancel.Launch
import Gearbox.Delay.Daemon
import Gearbox.Interleaving.Interpret

/-!
# A stop request

`do_stop_global_status_v1` with the delay table in its store: the call that stands for the
update of that table is carried out on it. The poke of the delay daemon comes after the
commit and swallows its exceptions, so the call throws only if nothing was committed.

Nobody else works on the status here. A run that the pre-cancel check lets through takes a
running status to `stopping` or beyond, and if the status is delayed its jobs are due at
once. A pending status is tried as well, but no transition leads from `pending` to
`stopping`: the handler asks for a retry and leaves everything as it was, every time
(`takesEffect_iff`, `pending_of_attempts`).
-/

namespace Gearbox

namespace Cancel

open Agents (Error EventStatus)
open Interleaving Status
open Propagation (Succeeded checkEvent)

/-- The row of a status and the delay table. -/
structure Store where
  row : Row
  table : Delay.Table

/-- What is done for a call when the delay table is at hand: for
`UPDATE jobs SET time=:time WHERE status_name=:name` the answer says whether the statement
is carried out. -/
def carryOut (name : String) : (x : Call) → Prog Store Answer (Answer x)
  | .delay time => do
      let done : Except Error Unit ← Prog.perform (Y := Answer) (.delay time)
      match done with
      | .ok () =>
          let _ ← Prog.transact fun s => { s with table := s.table.setTime name time }
          return .ok ()
      | .error e => return .error e
  | x => Prog.perform x

/-- `do_stop_global_status_v1` for the status `name`, after the pre-cancel job `event`. -/
def stop (name : String) (event : Option EventStatus) :
    Prog Store Answer (Except Propagation.Thrown Response) :=
  (doStop event).run.interpret Store.row (fun r s => { s with row := r }) (carryOut name)

/-- The pre-cancel check lets the request through: there was no pre-cancel job, or it has
succeeded. -/
def Passes : Option EventStatus → Prop
  | none => True
  | some evt => Succeeded evt

/-- `STOPPING` or a state that valid transitions lead to from there. -/
def Beyond (s : State) : Prop :=
  Relation.ReflTransGen (fun s s' => s' ≠ .unknown ∧ validStateTransition s s' = true)
    .stopping s

/-- The jobs of the status are due at the time `now`. -/
def Due (now : ℤ) (name : String) (t : Delay.Table) : Prop :=
  ∀ j ∈ t.withStatus name, j ∈ t.due now

/-- The store that the events leave behind. -/
def final (s : Store) (es : List (Event Store Answer)) : Store :=
  es.foldl (fun s e => e.after s) s

/-- The call that has thrown at an event. -/
def thrower {S : Type} : Event S Answer → Option Call
  | .call (.respProgress p) (.error _) => some (.respProgress p)
  | .call (.postChild uri) (.error _) => some (.postChild uri)
  | .call .runOnCancel (.error _) => some .runOnCancel
  | .call (.fetch uri) (.error _) => some (.fetch uri)
  | .call (.delay time) (.error _) => some (.delay time)
  | _ => none

/-- The calls that have thrown in a run. -/
def thrown {S : Type} (es : List (Event S Answer)) : List Call := es.filterMap thrower

/-- A stop request takes effect: the status is `stopping` or beyond, its jobs in the delay
table are due, and the request is not to be tried again on a store that it has left as it
was. -/
structure TakesEffect (now : ℤ) (name : String) (s s' : Store)
    (r : Except Propagation.Thrown Response) : Prop where
  beyond : Beyond s'.row.state
  due : Due now name s'.table
  moves : ¬ (r = .ok .retry ∧ s' = s)

/-- Everything but the states in front of `stopping` is beyond it. -/
theorem beyond_iff {s : State} :
    Beyond s ↔ s ≠ .unknown ∧ s ≠ .pending ∧ s ≠ .running := by
  constructor
  · intro h
    induction h with
    | refl => decide
    | @tail s s' _ hstep ih =>
        obtain ⟨hne, hv⟩ := hstep
        revert ih hne hv
        cases s <;> cases s' <;> decide
  · rintro ⟨hunknown, hpending, hrunning⟩
    have hstopped : Beyond .stopped := .tail .refl (by decide)
    have hcancelling : Beyond .cancelling := .tail hstopped (by decide)
    cases s with
    | unknown => exact absurd rfl hunknown
    | pending => exact absurd rfl hpending
    | running => exact absurd rfl hrunning
    | stopping => exact .refl
    | stopped => exact hstopped
    | cancelling => exact hcancelling
    | cancelled => exact .tail hcancelling (by decide)
    | completed => exact .tail .refl (by decide)

/-- A transaction of an operation on the status does not lead back. -/
theorem beyond_of_moves {s : State} (hs : s ≠ .unknown) {r r' : Row} (h : Moves s r r')
    (hr : Beyond r.state) : Beyond r'.state := by
  rcases h with hsame | ⟨hv, hto⟩
  · rw [hsame]
    exact hr
  · rw [hto]
    exact .tail hr ⟨hs, hv⟩

theorem mem_due {t : Delay.Table} {now : ℤ} {j : Delay.JobRow} :
    j ∈ t.due now ↔ j ∈ t.rows ∧ j.time ≤ now := by
  simp [Delay.Table.due]

/-- Jobs whose time is set to 0 are due at once. -/
theorem due_setTime (t : Delay.Table) (name : String) {now : ℤ} (hnow : 0 ≤ now) :
    Due now name (t.setTime name 0) := by
  intro j hj
  obtain ⟨hmem, hname⟩ := List.mem_filter.1 hj
  refine mem_due.2 ⟨hmem, ?_⟩
  obtain ⟨j', _, rfl⟩ := List.mem_map.1 hmem
  by_cases hj' : j'.statusName = some name
  · rw [if_pos hj']
    exact hnow
  · rw [if_neg hj'] at hname
    exact absurd (of_decide_eq_true hname) hj'

/-- What is known of a run: the store, and the calls that have thrown. -/
structure Halt where
  store : Store
  thrown : List Call

/-- What a call does to the delay table. -/
def delayed (name : String) : Event Row Answer → Delay.Table → Delay.Table
  | .call (.delay time) (.ok _), t => t.setTime name time
  | _, t => t

/-- The monitor of a handler that is alone. -/
def haltMonitor (name : String) : Monitor Row Answer Halt where
  next g e := ⟨⟨e.after g.store.row, delayed name e g.store.table⟩,
    g.thrown ++ (thrower e).toList⟩
  rely g r := r = g.store.row
  guar _ _ := True

/-- The monitor of `stop`, which works on the delay table itself. -/
def storeMonitor : Monitor Store Answer Halt where
  next g e := ⟨e.after g.store, g.thrown ++ (thrower e).toList⟩
  rely g s := s = g.store
  guar _ _ := True

/-- Only the call of an event can have thrown at it. -/
theorem thrower_call {S : Type} {x c : Call} {y : Answer x}
    (h : thrower (S := S) (.call x y) = some c) : c = x := by
  cases x with
  | respProgress p => cases y <;> cases h; rfl
  | postChild uri => cases y <;> cases h; rfl
  | runOnCancel => cases y <;> cases h; rfl
  | fetch uri => cases y <;> cases h; rfl
  | delay time => cases y <;> cases h; rfl
  | _ => cases h

/-- A call that is not about the delay table does the same in both. -/
theorem next_call (name : String) (g : Halt) {x : Call} {y : Answer x}
    (hx : ∀ time, x ≠ .delay time) :
    storeMonitor.next g (.call x y) = (haltMonitor name).next g (.call x y) := by
  cases x with
  | delay time => exact absurd rfl (hx time)
  | respProgress p => cases y <;> rfl
  | postChild uri => cases y <;> rfl
  | runOnCancel => cases y <;> rfl
  | fetch uri => cases y <;> rfl
  | _ => rfl

/-- What is done for a call is what the call does. -/
theorem wp_carryOut (name : String) (g : Halt) (x : Call) :
    (carryOut name x).wp storeMonitor
      (fun g' y => g' = (haltMonitor name).next g (.call x y)) g := by
  cases x with
  | delay time =>
      intro y
      refine ⟨trivial, ?_⟩
      cases y with
      | ok u =>
          rintro _ rfl
          refine ⟨trivial, ?_⟩
          have hthrown : g.thrown ++ [] ++ [] = g.thrown ++ [] := List.append_nil _
          exact congrArg (Halt.mk ⟨g.store.row, g.store.table.setTime name time⟩) hthrown
      | error e =>
          show storeMonitor.next g _ = (haltMonitor name).next g _
          rfl
  | _ => exact fun y => ⟨trivial, next_call name g (by intro time h; cases h)⟩

/-- What the handler ensures, `stop` ensures. -/
theorem wp_stop {name : String} {event : Option EventStatus}
    {Q : Halt → Except Propagation.Thrown Response → Prop} {g : Halt}
    (h : (doStop event).run.wp (haltMonitor name) Q g) :
    (stop name event).wp storeMonitor Q g := by
  refine Prog.wp_interpret _ _ _ ?_ ?_ ?_ (fun g x _ => wp_carryOut name g x) h
  · rintro g _ rfl
    rfl
  · rintro g _ rfl _
    exact ⟨trivial, rfl⟩
  · rintro g _ r rfl _
    exact ⟨trivial, rfl⟩

theorem foldl_storeMonitor (s : Store) (xs : List Call) (es : List (Event Store Answer)) :
    es.foldl storeMonitor.next ⟨s, xs⟩ = ⟨final s es, xs ++ thrown es⟩ := by
  induction es generalizing s xs with
  | nil => simp [final, thrown]
  | cons e es ih =>
      have hnext : storeMonitor.next ⟨s, xs⟩ e = ⟨e.after s, xs ++ (thrower e).toList⟩ := rfl
      rw [List.foldl_cons, hnext, ih]
      cases he : thrower e with
      | none => simp [final, thrown, he]
      | some x => simp [final, thrown, he]

/-- A run that is alone ends as its weakest precondition says. -/
theorem halts_of_runs {name : String} {event : Option EventStatus} {s : Store}
    {es : List (Event Store Answer)} {r : Except Propagation.Thrown Response}
    {Q : Halt → Except Propagation.Thrown Response → Prop}
    (h : (doStop event).run.wp (haltMonitor name) Q ⟨s, []⟩)
    (hr : (stop name event).Runs es r) (hu : Prog.Undisturbed s es) :
    Q ⟨final s es, thrown es⟩ r := by
  have hend := Prog.wp_runs (J := fun (g : Halt) s => g.store = s) rfl
    (fun _ _ hJ => hJ.symm) ?_ (wp_stop h) hr hu
  · rw [foldl_storeMonitor] at hend
    exact hend
  · rintro g _ e rfl _
    rfl

section Steps

variable {name : String} {α : Type} {g : Halt}

theorem halt_read (r : Row) (hr : r = g.store.row) :
    (haltMonitor name).next g (.read r) = g := by
  subst hr
  simp [haltMonitor, delayed, thrower, Event.after]

theorem halt_update (r r' : Row) :
    (haltMonitor name).next g (.update r r') =
      { g with store := { g.store with row := r' } } := by
  simp [haltMonitor, delayed, thrower, Event.after]

/-- A call that answers and is not about the delay table leaves everything as it was. -/
theorem halt_call {x : Call} {y : Answer x} (hx : ∀ time, x ≠ .delay time)
    (hy : thrower (S := Row) (.call x y) = none) :
    (haltMonitor name).next g (.call x y) = g := by
  rw [← next_call name g hx]
  have hstore : thrower (S := Store) (.call x y) = none := by
    rw [← hy]
    cases x with
    | delay time => exact absurd rfl (hx time)
    | respProgress p => cases y <;> rfl
    | postChild uri => cases y <;> rfl
    | runOnCancel => cases y <;> rfl
    | fetch uri => cases y <;> rfl
    | _ => rfl
  simp [storeMonitor, hstore, Event.after]

/-- What the handler does after the delay table: transactions that do not lead back, and
calls that are neither the first one nor about the delay table. -/
def Onward (r r' : Row) : Prop := Beyond r.state → Beyond r'.state

def Aside : Call → Prop
  | .delay _ => False
  | .respProgress p => p ≠ 10
  | _ => True

theorem onward_of_moves {s : State} (hs : s ≠ .unknown) (r r' : Row) (h : Moves s r r') :
    Onward r r' := beyond_of_moves hs h

theorem confinedE_status {p : Prog Row Answer (Except Thrown Unit × Handle)} {s : State}
    (hs : s ≠ .unknown) (hp : p.Within (Moves s)) :
    Prog.ConfinedE Onward Aside (attemptStatus p) := by
  refine Prog.confined_bind (Prog.confined_of_within (onward_of_moves hs) hp) fun r => ?_
  obtain ⟨r, h⟩ := r
  rcases r with (what | -) | u <;> exact trivial

theorem confinedE_setState (h : Handle) {s : State} (hs : s ≠ .unknown) :
    Prog.ConfinedE Onward Aside (plain (h.setState s)) :=
  Prog.confinedE_lift (Prog.confined_of_within (onward_of_moves hs) (within_setState h s))

/-- One of the calls that stand aside. -/
theorem confinedE_ask {x : Call} (hx : Aside x) :
    Prog.ConfinedE Onward Aside (plain (ask x)) :=
  Prog.confinedE_lift ⟨hx, fun _ => trivial⟩

theorem confinedE_attempt {x : Call} {y : Answer x → Except Error α} (hx : Aside x) :
    Prog.ConfinedE Onward Aside (attempt (.call x fun a => .ret (y a))) :=
  ⟨hx, fun _ => trivial⟩

theorem confinedE_watchLoop (watch : List String) :
    Prog.ConfinedE Onward Aside (watchLoop watch) := by
  induction watch with
  | nil => exact Prog.confinedE_pure _
  | cons uri rest ih =>
      refine Prog.confinedE_bind (confinedE_attempt trivial) fun s => ?_
      split
      · exact Prog.confinedE_pure _
      · split
        · rw [Propagation.raise_back]
          have hfail : Prog.ConfinedE Onward Aside (attemptStatus (fetched.fail s.code)) :=
            confinedE_status (by decide) (within_endWith _ _ .completed)
          exact Prog.confinedE_bind
            (Prog.confinedE_bind hfail fun _ => Prog.confinedE_pure _)
            fun _ => Prog.confinedE_throw _
        · exact ih

theorem confinedE_cancelStatus (s : Handle) :
    Prog.ConfinedE Onward Aside (cancelStatus s) :=
  Prog.confinedE_bind (confinedE_ask trivial) fun _ =>
    Prog.confinedE_bind (confinedE_status (by decide) (within_cancel s)) fun _ =>
      Prog.confinedE_pure _

theorem confinedE_doCancelwatch (watch : List String) (state : String) :
    Prog.ConfinedE Onward Aside (doCancelwatch watch state) := by
  refine Prog.confinedE_bind (confinedE_watchLoop watch) fun rest => ?_
  have hcancel : Prog.ConfinedE Onward Aside
      (do cancelStatus fetched; pure Response.success) :=
    Prog.confinedE_bind (confinedE_cancelStatus fetched) fun _ => Prog.confinedE_pure _
  split
  · exact Prog.confinedE_pure _
  · split
    · refine Prog.confinedE_bind (confinedE_ask trivial) fun registered => ?_
      split
      · exact Prog.confinedE_bind (confinedE_attempt (show 70 ≠ 10 by decide)) fun _ =>
          Prog.confinedE_bind (confinedE_attempt trivial) fun _ => Prog.confinedE_pure _
      · exact hcancel
    · split
      · exact hcancel
      · exact Prog.confinedE_pure _

theorem confinedE_cancelChildren (children : List String) :
    Prog.ConfinedE Onward Aside (cancelChildren children) := by
  induction children with
  | nil => exact Prog.confinedE_pure _
  | cons child rest ih =>
      refine Prog.confinedE_bind (confinedE_attempt trivial) fun r => ?_
      split
      · rw [Propagation.raise_back]
        exact Prog.confinedE_throw _
      · exact Prog.confinedE_bind ih fun _ => Prog.confinedE_pure _

theorem confinedE_doPollstate (state : String) (nextState : Option String) :
    Prog.ConfinedE Onward Aside (doPollstate state nextState) := by
  have hread : Prog.ConfinedE Onward Aside (plain fetched.getState) :=
    Prog.confinedE_lift (Prog.confined_of_within (fun _ _ h => h) (within_getState _ _))
  refine Prog.confinedE_bind hread fun c => ?_
  split
  split
  · exact Prog.confinedE_pure _
  · split
    · cases nextState with
      | none => exact Prog.confinedE_pure _
      | some next =>
          refine Prog.confinedE_bind (confinedE_attempt (show 40 ≠ 10 by decide)) fun _ => ?_
          split
          · refine Prog.confinedE_bind (confinedE_setState _ (by decide)) fun c => ?_
            split
            split
            · exact Prog.confinedE_pure _
            · refine Prog.confinedE_tryCatch ?_ fun err => ?_
              · exact Prog.confinedE_bind (confinedE_ask trivial) fun children =>
                  Prog.confinedE_bind (confinedE_cancelChildren children) fun watch =>
                    confinedE_doCancelwatch watch _
              · cases err with
                | error e =>
                    exact Prog.confinedE_bind (confinedE_setState _ (by decide)) fun _ =>
                      Prog.confinedE_throw _
                | undefined => exact Prog.confinedE_throw _
          · exact Prog.confinedE_throw _
    · exact Prog.confinedE_pure _

/-- What is left when the status is `stopping` or beyond and the handler is done with the
delay table. -/
structure Settled (t : Delay.Table) (refused : Prop) (g : Halt) : Prop where
  beyond : Beyond g.store.row.state
  table : g.store.table = t
  progress : Call.respProgress 10 ∉ g.thrown
  delay : Call.delay 0 ∈ g.thrown ↔ refused

/-- What the handler does from then on keeps that. -/
theorem wp_settled {p : Prog Row Answer α} {t : Delay.Table} {refused : Prop}
    (hp : p.Confined Onward Aside) (hg : Settled t refused g) :
    p.wp (haltMonitor name) (fun g' _ => Settled t refused g') g := by
  refine Prog.wp_of_confined ?_ ?_ ?_ hp hg
  · intro g r hg hr
    rw [halt_read r hr]
    exact ⟨trivial, hg⟩
  · rintro g r r' hg hr honward
    rw [halt_update]
    cases hr
    exact ⟨trivial, { hg with beyond := honward hg.beyond }⟩
  · intro g x y hg hx
    refine ⟨trivial, ?_⟩
    have hdelay : ∀ time, x ≠ .delay time := by
      rintro time rfl
      exact hx
    rw [← next_call name g hdelay]
    have hother : ∀ c ∈ (thrower (S := Store) (.call x y)).toList, Aside c := by
      intro c hc
      rw [thrower_call (Option.mem_toList.1 hc)]
      exact hx
    have hmem : ∀ c, ¬ Aside c →
        (c ∈ (storeMonitor.next g (.call x y)).thrown ↔ c ∈ g.thrown) := by
      intro c hc
      refine ⟨fun h => ?_, fun h => List.mem_append_left _ h⟩
      rcases List.mem_append.1 h with h | h
      · exact h
      · exact absurd (hother c h) hc
    exact {
      beyond := hg.beyond
      table := hg.table
      progress := fun h => hg.progress ((hmem (.respProgress 10) fun h => h rfl).1 h)
      delay := (hmem (.delay 0) fun h => h).trans hg.delay }

theorem wpE_settled {p : Handler α} {t : Delay.Table} {refused : Prop}
    (hp : Prog.ConfinedE Onward Aside p) (hg : Settled t refused g) :
    Prog.wpE (haltMonitor name) p (fun g' _ => Settled t refused g')
      (fun g' _ => Settled t refused g') g := by
  refine Prog.wp_mono _ ?_ (wp_settled hp hg)
  intro g' r h
  cases r with
  | ok a => exact h
  | error e => exact h

/-- Reading the state gives the state of the row. -/
theorem wp_getState_halt {Q : Halt → State × Handle → Prop}
    (hQ : Q g (g.store.row.state, fetched.assign g.store.row)) :
    (fetched.getState).wp (haltMonitor name) Q g := by
  rintro _ rfl
  refine ⟨trivial, ?_⟩
  rw [halt_read _ rfl]
  rwa [← fetched_assign_state g.store.row] at hQ

/-- A loaded handle refuses a transition that its cache does not admit. -/
theorem setState_of_invalid {X : Type} {Y : X → Type} {h : Handle} {s : State}
    (hl : h.loaded = true) (hv : validStateTransition h.state s = false) :
    h.setState (Y := Y) s = .ret (false, h) := by
  simp [Handle.setState, Handle.superState, hl, hv]

/-- `state(s)` through a handle that has read the row, for a valid transition. -/
theorem wp_setState_halt {h : Handle} {s : State} (hl : h.loaded = true)
    (hh : h.state = g.store.row.state)
    (hv : validStateTransition g.store.row.state s = true) {Q : Halt → Bool × Handle → Prop}
    (hQ : Q { g with store := { g.store with row := { g.store.row with state := s } } }
      (true, { h with state := s })) :
    (h.setState s).wp (haltMonitor name) Q g := by
  rw [setState_of_valid hl (by rw [hh]; exact hv)]
  rintro _ rfl
  refine ⟨trivial, ?_⟩
  have hpost : Handle.stateTx { h with state := s } s g.store.row =
      { g.store.row with state := s } := if_pos hv
  rw [hpost, halt_update, Prog.wp_ret, hv]
  exact hQ

theorem checkEvent_of_passes {event : Option EventStatus} (h : Passes event) :
    checkEvent event = (pure () : Handler Unit) := by
  cases event with
  | none => rfl
  | some evt => exact Propagation.checkEvent_of_succeeded h

/-- Where the handler is done with the delay table of a running status: the jobs have the
time 0 if `ytime` says that the status waits in the queue and the statement was carried
out, and their times are as they were otherwise. -/
inductive Rescheduled (name : String) (g g' : Halt) : Prop
  | carriedOut (ht : 0 ≤ g.store.row.ytime)
      (h : Settled (g.store.table.setTime name 0) False g')
  | refused (ht : 0 ≤ g.store.row.ytime) (h : Settled g.store.table True g')
  | skipped (ht : g.store.row.ytime < 0) (h : Settled g.store.table False g')

/-- How a request ends that the pre-cancel check has let through. -/
inductive Ended (name : String) (g g' : Halt) (r : Except Propagation.Thrown Response) : Prop
  | failed (hsame : g'.store = g.store) (hthrown : Call.respProgress 10 ∈ g'.thrown)
      (hr : ∃ e, r = .error e)
  | retried (hstate : g.store.row.state = .pending) (hsame : g'.store = g.store)
      (hr : r = .ok .retry)
  | stopped (hstate : g.store.row.state = .running) (h : Rescheduled name g g')

/-- What the rest of the handler keeps. -/
theorem wpE_rescheduled {p : Handler α} {g' : Halt} (hp : Prog.ConfinedE Onward Aside p)
    (h : Rescheduled name g g') :
    Prog.wpE (haltMonitor name) p (fun g' _ => Rescheduled name g g')
      (fun g' _ => Rescheduled name g g') g' := by
  cases h with
  | carriedOut ht h =>
      exact Prog.wpE_mono (fun _ _ h => .carriedOut ht h) (fun _ _ h => .carriedOut ht h)
        (wpE_settled hp h)
  | refused ht h =>
      exact Prog.wpE_mono (fun _ _ h => .refused ht h) (fun _ _ h => .refused ht h)
        (wpE_settled hp h)
  | skipped ht h =>
      exact Prog.wpE_mono (fun _ _ h => .skipped ht h) (fun _ _ h => .skipped ht h)
        (wpE_settled hp h)

/-- A running status becomes `stopping`, and then the delay table is seen to. -/
theorem wpE_stopRunning_halt (hstate : g.store.row.state = .running) (hg : g.thrown = []) :
    Prog.wpE (haltMonitor name) (stopRunning (fetched.assign g.store.row))
      (fun g' _ => Rescheduled name g g') (fun g' _ => Rescheduled name g g') g := by
  have hv : validStateTransition g.store.row.state .stopping = true := by
    rw [hstate]
    rfl
  refine Prog.wpE_bind (Prog.wpE_lift
    (wp_setState_halt rfl (fetched_assign_state _) hv ?_))
  have hytime : (fetched.assign g.store.row).ytime = g.store.row.ytime := by
    simp [Handle.assign, Handle.superState, fetched]
  dsimp only
  simp only [Bool.not_true, Bool.false_eq_true, if_false]
  split
  · rename_i ht
    rw [hytime] at ht
    refine Prog.wpE_bind (wpE_attempt fun y => ⟨trivial, ?_⟩)
    cases y with
    | ok u =>
        refine wpE_rescheduled ?_ (.carriedOut ht ?_)
        · exact Prog.confinedE_bind (Prog.confinedE_lift (Prog.confined_of_within
            (onward_of_moves (by decide)) (within_setYtime _ 0 .stopped)))
            fun _ => Prog.confinedE_pure _
        · exact {
            beyond := .refl
            table := rfl
            progress := by simp [haltMonitor, thrower, hg]
            delay := by simp [haltMonitor, thrower, hg] }
    | error e =>
        exact .refused ht {
          beyond := .refl
          table := rfl
          progress := by simp [haltMonitor, thrower, hg]
          delay := by simp [haltMonitor, thrower, hg] }
  · rename_i ht
    rw [hytime] at ht
    refine wpE_rescheduled ?_ (.skipped (by omega) ?_)
    · refine Prog.confinedE_bind (Prog.confinedE_lift (Prog.confined_of_within
        (fun _ _ h => h) (within_select Onward))) fun r => ?_
      split
      · exact Prog.confinedE_bind (Prog.confinedE_lift (Prog.confined_of_within
          (onward_of_moves (by decide)) (within_checkpoint _))) fun _ => Prog.confinedE_pure _
      · exact Prog.confinedE_pure _
    · exact {
        beyond := .refl
        table := rfl
        progress := by simp [hg]
        delay := by simp [hg] }

/-- A pending status cannot become `stopping`, and nothing happens to it. -/
theorem wpE_stopRunning_pending (hstate : g.store.row.state = .pending)
    {E : Halt → Propagation.Thrown → Prop} :
    Prog.wpE (haltMonitor name) (stopRunning (fetched.assign g.store.row))
      (fun g' b => b = false ∧ g' = g) E g := by
  unfold stopRunning
  rw [setState_of_invalid rfl (by rw [fetched_assign_state, hstate]; rfl)]
  exact ⟨rfl, rfl⟩

theorem wp_doStop_halt {event : Option EventStatus} (hpasses : Passes event)
    (hstate : g.store.row.state = .pending ∨ g.store.row.state = .running)
    (hg : g.thrown = []) :
    (doStop event).run.wp (haltMonitor name) (Ended name g) g := by
  have h : Prog.wpE (haltMonitor name) (doStop event) (fun g' r => Ended name g g' (.ok r))
      (fun g' e => Ended name g g' (.error e)) g := by
    unfold doStop
    rw [checkEvent_of_passes hpasses]
    refine Prog.wpE_bind (Prog.wpE_pure ?_)
    refine Prog.wpE_bind (wpE_attempt fun y => ⟨trivial, ?_⟩)
    cases y with
    | error e =>
        refine .failed rfl ?_ ⟨.error e, rfl⟩
        simp [haltMonitor, thrower]
    | ok u =>
        rw [halt_call (fun time h => by cases h) rfl]
        refine Prog.wpE_bind (Prog.wpE_lift (wp_getState_halt ?_))
        dsimp only
        rw [if_pos hstate]
        rcases hstate with hpending | hrunning
        · refine Prog.wpE_bind (Prog.wpE_mono ?_ (fun _ _ h => h)
            (wpE_stopRunning_pending hpending))
          rintro g' b ⟨rfl, rfl⟩
          exact Prog.wpE_pure (.retried hpending rfl rfl)
        · refine Prog.wpE_bind (Prog.wpE_mono ?_ (fun _ _ h => .stopped hrunning h)
            (wpE_stopRunning_halt hrunning hg))
          intro g' b h
          cases b with
          | false => exact Prog.wpE_pure (.stopped hrunning h)
          | true =>
              exact Prog.wpE_mono (fun _ _ h => .stopped hrunning h)
                (fun _ _ h => .stopped hrunning h)
                (wpE_rescheduled (confinedE_doPollstate _ _) h)
  refine Prog.wp_mono _ ?_ h
  intro g' r h
  cases r with
  | ok a => exact h
  | error e => exact h

end Steps

/-- How a run of `stop` ends that is alone and that the pre-cancel check has let through. -/
theorem ended_of_runs {name : String} {event : Option EventStatus} {s : Store}
    {es : List (Event Store Answer)} {r : Except Propagation.Thrown Response}
    (hpasses : Passes event) (hstate : s.row.state = .pending ∨ s.row.state = .running)
    (hr : (stop name event).Runs es r) (hu : Prog.Undisturbed s es) :
    Ended name ⟨s, []⟩ ⟨final s es, thrown es⟩ r :=
  halts_of_runs (wp_doStop_halt hpasses hstate rfl) hr hu

/-- A stop request on a pending or running status, alone and let through by the pre-cancel
check, takes effect exactly if the status is running, the response could be told about the
progress, and the jobs of the status are due already or `ytime` says that the status waits
in the delay queue and the delay table could be updated. -/
theorem takesEffect_iff {name : String} {event : Option EventStatus} {s : Store}
    {es : List (Event Store Answer)} {r : Except Propagation.Thrown Response} {now : ℤ}
    (hnow : 0 ≤ now) (hpasses : Passes event) (hstate : s.row.state = .pending ∨ s.row.state = .running)
    (hr : (stop name event).Runs es r) (hu : Prog.Undisturbed s es) :
    TakesEffect now name s (final s es) r ↔
      s.row.state = .running ∧ Call.respProgress 10 ∉ thrown es ∧
        (Due now name s.table ∨ (0 ≤ s.row.ytime ∧ Call.delay 0 ∉ thrown es)) := by
  have hbefore : ¬ Beyond s.row.state := by
    rw [beyond_iff]
    rcases hstate with h | h <;> simp [h]
  cases ended_of_runs hpasses hstate hr hu with
  | failed hsame hthrown _ =>
      have hrow : final s es = s := hsame
      refine iff_of_false (fun h => hbefore ?_) (fun h => h.2.1 hthrown)
      rw [← hrow]
      exact h.beyond
  | retried hpending hsame _ =>
      have hrow : final s es = s := hsame
      refine iff_of_false (fun h => hbefore ?_) (fun h => ?_)
      · rw [← hrow]
        exact h.beyond
      · have hrunning := h.1
        rw [hpending] at hrunning
        cases hrunning
  | stopped hrunning h =>
      have htakes : ∀ {t : Delay.Table} {refused : Prop},
          Settled t refused ⟨final s es, thrown es⟩ →
          (TakesEffect now name s (final s es) r ↔ Due now name t) := by
        intro t refused h
        rw [← h.table]
        refine ⟨fun h => h.due, fun hdue => ⟨h.beyond, hdue, ?_⟩⟩
        rintro ⟨-, hsame⟩
        have hbeyond : Beyond (final s es).row.state := h.beyond
        rw [hsame] at hbeyond
        exact hbefore hbeyond
      cases h with
      | carriedOut ht h =>
          refine (htakes h).trans (iff_of_true (due_setTime _ _ hnow) ?_)
          exact ⟨hrunning, h.progress, .inr ⟨ht, h.delay.1⟩⟩
      | refused ht h =>
          refine (htakes h).trans ⟨fun hdue => ⟨hrunning, h.progress, .inl hdue⟩, ?_⟩
          rintro ⟨-, -, hdue | ⟨-, hdelay⟩⟩
          · exact hdue
          · exact absurd (h.delay.2 trivial) hdelay
      | skipped ht h =>
          refine (htakes h).trans ⟨fun hdue => ⟨hrunning, h.progress, .inl hdue⟩, ?_⟩
          rintro ⟨-, -, hdue | ⟨ht', -⟩⟩
          · exact hdue
          · exact absurd ht (Int.not_lt.2 ht')

/-- A status that waits in the delay queue for the time 500. -/
def queuedStatus (state : State) : Store where
  row := ⟨state, 0, -1, 500, 0, 0⟩
  table := { rows := [⟨1, some "s-1", "do_work", "e", 500, 100⟩], key := by decide }

/-- The request on it while it is running: the status is `stopping` and its job is due. -/
theorem takesEffect_running :
    ∃ es r, (stop "s-1" none).Runs es r ∧
      TakesEffect 100 "s-1" (queuedStatus .running) (final (queuedStatus .running) es) r ∧
      r = .ok (.continue (.pollstate "STOPPED" (some "CANCELLED"))) := by
  have hexec : ((stop "s-1" none).execute (queuedStatus .running)
      [⟨.respProgress 10, .ok ()⟩, ⟨.delay 0, .ok ()⟩]).map (fun p => (thrown p.1, p.2)) =
        some ([], .ok (.continue (.pollstate "STOPPED" (some "CANCELLED")))) := by rfl
  obtain ⟨⟨es, r⟩, hexec, hends⟩ := Option.map_eq_some_iff.1 hexec
  obtain ⟨hr, hu⟩ := Prog.runs_of_execute hexec
  simp only [Prod.mk.injEq] at hends
  obtain ⟨hthrown, hres⟩ := hends
  have hpasses : Passes none := trivial
  refine ⟨es, r, hr, (takesEffect_iff (by decide) hpasses (.inr rfl) hr hu).2 ?_, hres⟩
  rw [hthrown]
  exact ⟨rfl, List.not_mem_nil, .inr ⟨by decide, List.not_mem_nil⟩⟩

/-- The request on it while it is pending is to be tried again, and nothing has changed. -/
theorem not_takesEffect :
    ¬ ∀ (name : String) (event : Option EventStatus) (s : Store) (es : List (Event Store Answer))
        (r : Except Propagation.Thrown Response) (now : ℤ), 0 ≤ now → Passes event →
      s.row.state = .pending ∨ s.row.state = .running → (stop name event).Runs es r →
      Prog.Undisturbed s es → TakesEffect now name s (final s es) r := by
  intro hall
  have hexec : (stop "s-1" none).execute (queuedStatus .pending)
      [⟨.respProgress 10, .ok ()⟩] =
        some ([.call (.respProgress 10) (.ok ()), .read (queuedStatus .pending)],
          .ok .retry) := by rfl
  obtain ⟨hr, hu⟩ := Prog.runs_of_execute hexec
  have htakes := hall "s-1" none _ _ _ 100 (by decide) trivial (.inl rfl) hr hu
  exact htakes.moves ⟨rfl, rfl⟩

/-- Runs of the request one after another, with nobody else at work. -/
inductive Attempts (name : String) (event : Option EventStatus) :
    Store → List (Except Propagation.Thrown Response) → Store → Prop
  | nil (s : Store) : Attempts name event s [] s
  | cons {s s' : Store} {es : List (Event Store Answer)} {r : Except Propagation.Thrown Response}
      {rs : List (Except Propagation.Thrown Response)} (hr : (stop name event).Runs es r)
      (hu : Prog.Undisturbed s es) (h : Attempts name event (final s es) rs s') :
      Attempts name event s (r :: rs) s'

/-- A pending status is still as it was after any number of attempts, and each of them that
has not thrown asks for another one. -/
theorem pending_of_attempts {name : String} {event : Option EventStatus} {s s' : Store}
    {rs : List (Except Propagation.Thrown Response)} (hpasses : Passes event)
    (hstate : s.row.state = .pending) (h : Attempts name event s rs s') :
    s' = s ∧ ∀ r ∈ rs, r = .ok .retry ∨ ∃ e, r = .error e := by
  induction h with
  | nil s => exact ⟨rfl, fun _ hr => absurd hr List.not_mem_nil⟩
  | @cons s s' es r rs hr hu _ ih =>
      have hfirst : final s es = s ∧ (r = .ok .retry ∨ ∃ e, r = .error e) := by
        cases ended_of_runs hpasses (.inl hstate) hr hu with
        | failed hsame _ hr => exact ⟨hsame, .inr hr⟩
        | retried _ hsame hr => exact ⟨hsame, .inl hr⟩
        | stopped hrunning _ =>
            have hrunning' : s.row.state = .running := hrunning
            rw [hstate] at hrunning'
            cases hrunning'
      obtain ⟨hsame, hres⟩ := hfirst
      rw [hsame] at ih
      obtain ⟨hlast, hrest⟩ := ih hstate
      refine ⟨hlast, fun r' hr' => ?_⟩
      rcases List.mem_cons.1 hr' with rfl | hr'
      · exact hres
      · exact hrest r' hr'

theorem checkEvent_of_not_passes {event : Option EventStatus} (h : ¬ Passes event) :
    ∃ t, checkEvent event = (throw t : Handler Unit) := by
  cases event with
  | none => exact absurd trivial h
  | some evt =>
      by_cases hp : evt.progress = 100
      · exact ⟨_, Propagation.checkEvent_of_failed ⟨hp, fun hc => h ⟨hp, hc⟩⟩⟩
      · refine ⟨.error ⟨500, "is_success is invalid on in-complete status"⟩, ?_⟩
        rw [checkEvent, EventStatus.isSuccess, if_pos hp]

/-- After a pre-cancel job that has failed the request is given up before it looks at the
status. -/
theorem stop_refused {name : String} {event : Option EventStatus}
    {es : List (Event Store Answer)} {r : Except Propagation.Thrown Response} (h : ¬ Passes event)
    (hr : (stop name event).Runs es r) : es = [] ∧ ∃ e, r = .error e := by
  obtain ⟨e, he⟩ := checkEvent_of_not_passes h
  have hstop : stop name event = .ret (.error e) := by
    unfold stop doStop
    rw [he]
    rfl
  rw [hstop] at hr
  obtain ⟨hes, hres⟩ := Prog.runs_ret.1 hr
  exact ⟨hes, e, hres⟩

end Cancel

end Gearbox
