import Gearbox.Cancel.Launch

/-!
# A cancellation that fails

One chain alone, so that the row is as its own last transaction left it. A run of a
handler that fails after the status has entered `cancelling` has to take it out of that
state again, since a request on a `cancelling` status is answered with a conflict.
`do_pollstate` does so for the exceptions of its `try` block, but when the cancellation of
a child has failed without a message it takes the last one all the same. A
`do_cancelwatch` that was queued does so only when a watched status has failed: an
exception of a call it makes leaves the status in `cancelling` (`recovered_iff`).
-/

namespace Gearbox

namespace Cancel

open Agents (Error EventStatus)
open Interleaving Status
open Propagation (Failed raised raised_eq_undefined)

/-- A transaction takes the row into `cancelling`. -/
def enters : Event Row Answer → Bool
  | .update pre post => pre.state ≠ .cancelling ∧ post.state = .cancelling
  | _ => false

/-- A call has thrown. -/
def throws : Event Row Answer → Bool
  | .call (.respProgress _) (.error _) => true
  | .call (.postChild _) (.error _) => true
  | .call .runOnCancel (.error _) => true
  | .call (.fetch _) (.error _) => true
  | .call (.delay _) (.error _) => true
  | _ => false

/-- The cancellation of a child has failed without a message. -/
def silent : Event Row Answer → Bool
  | .call (.postChild _) (.ok r) => Failed r.status ∧ r.status.messages = []
  | _ => false

/-- How far a chain has come: the row, whether it has entered `cancelling`, whether a call
has thrown and whether the cancellation of a child has failed without a message. -/
structure Course where
  row : Row
  entered : Bool
  threw : Bool
  silent : Bool

/-- The monitor of a chain that is alone: the row is the one it knows. -/
def courseMonitor : Monitor Row Answer Course where
  next g e := ⟨e.after g.row, g.entered || enters e, g.threw || throws e,
    g.silent || silent e⟩
  rely g r := r = g.row
  guar _ _ := True

/-- Nothing has gone wrong so far. -/
def Smooth (g : Course) : Prop := g.threw = false ∧ g.silent = false

/-- The status has not been touched so far. -/
def Fresh (g : Course) : Prop := g.entered = false ∧ Smooth g

/-- Where a chain stands when it has queued a job. -/
def Stands (g : Course) : Job → Prop
  | .cancelwatch _ _ => g.row.state = .cancelling ∧ Smooth g
  | .ended => True
  | _ => Fresh g

def Job.isCancelwatch : Job → Bool
  | .cancelwatch _ _ => true
  | _ => false

/-- The status is not left in `cancelling`. -/
def Recovered (r : Row) : Prop := r.state = .completed ∨ r.state = .cancelled

/-- What the handler of `job` promises: the job that is queued next stands where the
chain does. -/
def Lands (job : Job) (g : Course) : Response → Prop
  | .success => True
  | .continue next => Stands g next
  | .retry => Stands g job

section Steps

variable {α : Type} {g : Course} {E : Course → Propagation.Thrown → Prop} {job : Job}

theorem course_read (g : Course) (r : Row) : courseMonitor.next g (.read r) = g := by
  simp [courseMonitor, enters, throws, silent, Event.after]

/-- A call that answers leaves the chain where it is. -/
theorem course_call (g : Course) {x : Call} {y : Answer x}
    (h : throws (.call x y) = false) (h' : silent (.call x y) = false) :
    courseMonitor.next g (.call x y) = g := by
  simp [courseMonitor, enters, h, h', Event.after]

/-- A call that throws is remembered. -/
theorem course_throw (g : Course) {x : Call} {y : Answer x}
    (h : throws (.call x y) = true) (h' : silent (.call x y) = false) :
    courseMonitor.next g (.call x y) = { g with threw := true } := by
  simp [courseMonitor, enters, h, h', Event.after]

theorem course_update (g : Course) (pre post : Row) :
    courseMonitor.next g (.update pre post) =
      { g with row := post, entered := g.entered || enters (.update pre post) } := by
  simp [courseMonitor, throws, silent, Event.after]

/-- Reading the state gives the state of the row. -/
theorem wp_getState_course {Q : Course → State × Handle → Prop}
    (hQ : Q g (g.row.state, fetched.assign g.row)) :
    (fetched.getState).wp courseMonitor Q g := by
  rintro _ rfl
  refine ⟨trivial, ?_⟩
  rw [course_read]
  rwa [← fetched_assign_state g.row] at hQ

/-- `state(s)` through a loaded handle: if the cache and the row admit `s`, the row is
in `s` afterwards. -/
theorem wp_setState_course {h : Handle} {s : State} (hl : h.loaded = true)
    (hv : validStateTransition h.state s = true)
    (hr : validStateTransition g.row.state s = true)
    {Q : Course → Bool × Handle → Prop}
    (hQ : Q { g with
        row := { g.row with state := s }
        entered := g.entered || enters (.update g.row { g.row with state := s }) }
      (true, { h with state := s })) :
    (h.setState s).wp courseMonitor Q g := by
  rw [setState_of_valid hl hv]
  rintro _ rfl
  have hpost : Handle.stateTx { h with state := s } s g.row = { g.row with state := s } :=
    if_pos hr
  refine ⟨trivial, ?_⟩
  rw [hpost, course_update, Prog.wp_ret, hr]
  exact hQ

/-- `end` on a `cancelling` row, through a handle that loads the row, takes it to `s`
and does not throw. -/
theorem wp_endWith_course (h : Handle) (code : ℤ) {s : State}
    (hs : s = .completed ∨ s = .cancelled) (hload : h.loaded = true ∨ h = fetched)
    (hg : g.row.state = .cancelling) :
    (h.endWith code s).wp courseMonitor (fun g' r => r.1 = .ok () ∧
      g'.row.state = s ∧ g'.threw = g.threw ∧ g'.silent = g.silent) g := by
  have hread : Prog.wp courseMonitor (if !h.loaded then h.reallyLoad else h.sync)
      (fun g' h' => g' = g ∧ h'.state = .cancelling) g := by
    rcases hload with hl | rfl
    · rw [hl]
      rintro _ rfl
      exact ⟨trivial, course_read g _, (sync_assign_state h _).trans hg⟩
    · rintro _ rfl
      exact ⟨trivial, course_read g _, (fetched_assign_state _).trans hg⟩
  refine Prog.wp_bind _ (Prog.wp_mono _ ?_ hread)
  intro g' h' hread
  obtain ⟨hsame, hstate⟩ := hread
  rw [hsame]
  have hvalid : validStateTransition .cancelling s = true := by
    rcases hs with rfl | rfl <;> rfl
  have hv : validStateTransition h'.state s = true := by rw [hstate, hvalid]
  simp only [Handle.superState, hv, if_true, Bool.not_true, Bool.false_eq_true, if_false]
  rintro _ rfl
  refine ⟨trivial, rfl, ?_⟩
  have hr : validStateTransition g.row.state s = true := by rw [hg, hvalid]
  have hpost : (Handle.endTx (Handle.complete { h' with state := s } code) s
      g.row).state = s := by
    rw [Handle.endTx, if_pos hr, complete_state]
  rw [course_update]
  exact ⟨hpost, rfl, rfl⟩

theorem wp_cancel_course (hg : g.row.state = .cancelling) :
    (fetched.cancel).wp courseMonitor (fun _ r => r.1 = .ok ()) g := by
  refine Prog.wp_bind _ (wp_getState_course ?_)
  have hne : g.row.state ≠ .cancelled := by
    rw [hg]
    decide
  dsimp only
  rw [if_pos hne]
  exact Prog.wp_mono _ (fun _ _ h => h.1)
    (wp_endWith_course _ _ (.inr rfl) (.inl rfl) hg)

/-- What `do_cancelwatch` leaves behind when it does not return: the status completed if a
watched status has failed, and still `cancelling` if a call has thrown. -/
def Fails (g : Course) (t : Propagation.Thrown) : Prop :=
  (g.row.state = .completed ∧ Smooth g) ∨
    (g.row.state = .cancelling ∧ g.threw = true ∧ g.silent = false ∧ t ≠ .undefined)

/-- A call throws in `do_cancelwatch`. -/
theorem fails_of_throws (hg : g.row.state = .cancelling) (hsmooth : Smooth g) (e : Error)
    {x : Call} {y : Answer x} (h : throws (.call x y) = true)
    (h' : silent (.call x y) = false) :
    Fails (courseMonitor.next g (.call x y)) (.error e) := by
  rw [course_throw g h h']
  exact .inr ⟨hg, rfl, hsmooth.2, nofun⟩

theorem wpE_watchLoop_course (watch : List String) (hg : g.row.state = .cancelling)
    (hsmooth : Smooth g) :
    Prog.wpE courseMonitor (watchLoop watch) (fun g' _ => g' = g) Fails g := by
  refine wpE_watchLoop (m := courseMonitor) (I := fun _ g' => g' = g)
    (fun _ _ _ _ _ => trivial) ?_ ?_ ?_ ?_ rfl
  · rintro uri rest _ e rfl
    exact fails_of_throws hg hsmooth e rfl rfl
  · rintro uri rest _ s rfl _
    exact course_call _ rfl rfl
  · rintro uri rest _ s rfl _
    rw [course_call _ rfl rfl]
    refine wpE_attemptStatus (Prog.wp_mono _ ?_
      (wp_endWith_course fetched s.code (.inl rfl) (.inr rfl) hg))
    rintro g' r ⟨hok, hrow, hthrew, hsilent⟩
    exact ⟨fun _ => .inl ⟨hrow, hthrew.trans hsmooth.1, hsilent.trans hsmooth.2⟩,
      fun hne => absurd hok hne⟩
  · rintro uri rest _ s rfl _
    exact course_call _ rfl rfl

theorem wpE_cancelStatus_course (hg : g.row.state = .cancelling) :
    Prog.wpE courseMonitor (cancelStatus fetched) (fun _ _ => True) E g := by
  refine Prog.wpE_bind fun _ => ⟨trivial, ?_⟩
  rw [course_call g rfl rfl]
  refine Prog.wpE_bind (wpE_attemptStatus (Prog.wp_mono _ ?_ (wp_cancel_course hg)))
  intro g' r hok
  exact ⟨fun _ => Prog.wpE_pure trivial, fun hne => absurd hok hne⟩

theorem wpE_doCancelwatch_course (watch : List String) (state : String)
    (hg : g.row.state = .cancelling) (hsmooth : Smooth g) :
    Prog.wpE courseMonitor (doCancelwatch watch state) (Lands job) Fails g := by
  refine Prog.wpE_bind (Prog.wpE_mono ?_ (fun _ _ h => h)
    (wpE_watchLoop_course watch hg hsmooth))
  intro g' rest hsame
  rw [hsame]
  have hcancel : Prog.wpE courseMonitor
      (do cancelStatus fetched; pure Response.success) (Lands job) Fails g :=
    Prog.wpE_bind (Prog.wpE_mono (fun _ _ _ => Prog.wpE_pure trivial)
      (fun _ _ h => h) (wpE_cancelStatus_course hg))
  split
  · exact Prog.wpE_pure ⟨hg, hsmooth⟩
  · split
    · refine Prog.wpE_bind fun registered => ⟨trivial, ?_⟩
      rw [course_call g rfl rfl]
      cases registered with
      | true =>
          refine Prog.wpE_bind (wpE_attempt fun y => ⟨trivial, ?_⟩)
          cases y with
          | error e => exact fails_of_throws hg hsmooth e rfl rfl
          | ok _ =>
              rw [course_call g rfl rfl]
              refine Prog.wpE_bind (wpE_attempt fun y => ⟨trivial, ?_⟩)
              cases y with
              | error e => exact fails_of_throws hg hsmooth e rfl rfl
              | ok uri =>
                  rw [course_call g rfl rfl]
                  exact Prog.wpE_pure ⟨hg, hsmooth⟩
      | false => exact hcancel
    · split
      · exact hcancel
      · exact Prog.wpE_pure trivial

/-- What the loop over the children leaves behind when it does not return: an exception,
or a failure without a message. -/
def FailsChild (g : Course) (t : Propagation.Thrown) : Prop :=
  g.row.state = .cancelling ∧ (g.silent = true ↔ t = .undefined)

theorem wpE_cancelChildren_course (children : List String)
    (hg : g.row.state = .cancelling) (hsmooth : Smooth g) :
    Prog.wpE courseMonitor (cancelChildren children) (fun g' _ => g' = g) FailsChild g := by
  refine wpE_cancelChildren (m := courseMonitor) (I := fun _ g' => g' = g)
    (fun _ _ _ _ _ => trivial) ?_ ?_ ?_ rfl
  · rintro watch child _ e rfl
    rw [course_throw _ rfl rfl]
    refine ⟨hg, iff_of_false (fun h => ?_) nofun⟩
    rw [hsmooth.2] at h
    cases h
  · rintro watch child _ r rfl hr
    refine ⟨hg, ?_⟩
    rw [raised_eq_undefined]
    simp [courseMonitor, hsmooth.2, silent, hr]
  · rintro watch child _ r rfl hr
    exact course_call _ rfl (by simp [silent, hr])

/-- What the `try` block leaves behind when it does not return. -/
def FailsLaunch (g : Course) (t : Propagation.Thrown) : Prop :=
  (g.row.state = .cancelling ∧ (g.silent = true ↔ t = .undefined)) ∨
    (g.row.state = .completed ∧ g.silent = false)

theorem wpE_launch_course (hg : g.row.state = .cancelling) (hsmooth : Smooth g) :
    Prog.wpE courseMonitor launch (Lands job) FailsLaunch g := by
  refine Prog.wpE_bind fun children => ⟨trivial, ?_⟩
  rw [course_call g rfl rfl]
  refine Prog.wpE_bind (Prog.wpE_mono ?_ (fun _ _ h => .inl h)
    (wpE_cancelChildren_course children hg hsmooth))
  intro g' watch hsame
  rw [hsame]
  refine Prog.wpE_mono (fun _ _ h => h) ?_ (wpE_doCancelwatch_course watch _ hg hsmooth)
  intro g' t hfails
  rcases hfails with ⟨hrow, -, hsilent⟩ | ⟨hrow, -, hsilent, ht⟩
  · exact .inr ⟨hrow, hsilent⟩
  · refine .inl ⟨hrow, iff_of_false (fun h => ?_) ht⟩
    rw [hsilent] at h
    cases h

/-- What the handlers before the first `do_cancelwatch` leave behind when they do not
return. -/
def Recovers (g : Course) (_ : Propagation.Thrown) : Prop :=
  g.entered = true → if g.silent then g.row.state = .cancelling else Recovered g.row

theorem recovers_of_not_entered {g : Course} (he : g.entered = false)
    (t : Propagation.Thrown) : Recovers g t := by
  intro hent
  rw [he] at hent
  cases hent

/-- The handler of the `try` block. -/
theorem wpE_recover {s : Handle} {t : Propagation.Thrown} (hl : s.loaded = true)
    (hs : s.state = .cancelling) (hfails : FailsLaunch g t) :
    Prog.wpE courseMonitor (recover s t) (Lands job) Recovers g := by
  have hcache : validStateTransition s.state .completed = true := by
    rw [hs]
    rfl
  cases t with
  | error e =>
      have hrow : g.row.state = .cancelling ∨ g.row.state = .completed :=
        hfails.imp And.left And.left
      have hback : validStateTransition g.row.state .completed = true := by
        rcases hrow with h | h <;> rw [h] <;> rfl
      have hsilent : g.silent = false := by
        rcases hfails with ⟨-, h⟩ | ⟨-, h⟩
        · exact Bool.eq_false_iff.2 fun h' => nomatch h.1 h'
        · exact h
      refine Prog.wpE_bind (Prog.wpE_lift (wp_setState_course hl hcache hback ?_))
      refine Prog.wpE_throw fun _ => ?_
      rw [hsilent]
      exact .inl rfl
  | undefined =>
      refine Prog.wpE_throw fun _ => ?_
      rcases hfails with ⟨hrow, h⟩ | ⟨hrow, h⟩
      · rw [h.2 rfl]
        exact hrow
      · rw [h]
        exact .inl hrow

theorem wpE_doPollstate_course (state : String) (nextState : Option String)
    (hfresh : Fresh g) :
    Prog.wpE courseMonitor (doPollstate state nextState) (Lands job) Recovers g := by
  have hbefore := recovers_of_not_entered hfresh.1
  refine Prog.wpE_bind (Prog.wpE_lift (wp_getState_course ?_))
  dsimp only
  split
  · exact Prog.wpE_pure trivial
  · split
    · rename_i hstopped
      cases nextState with
      | none => exact Prog.wpE_pure trivial
      | some next =>
          refine Prog.wpE_bind (wpE_attempt fun y => ⟨trivial, ?_⟩)
          cases y with
          | error e =>
              rw [course_throw g rfl rfl]
              exact hbefore (.error e)
          | ok _ =>
              rw [course_call g rfl rfl]
              dsimp only
              split
              · have hr : validStateTransition g.row.state .cancelling = true := by
                  rcases hstopped.2 with h | h <;> rw [h] <;> rfl
                have hv : validStateTransition (fetched.assign g.row).state
                    .cancelling = true := by
                  rw [fetched_assign_state]
                  exact hr
                refine Prog.wpE_bind (Prog.wpE_lift (wp_setState_course rfl hv hr ?_))
                refine Prog.wpE_tryCatch (Prog.wpE_mono (fun _ _ h => h) ?_
                  (wpE_launch_course rfl hfresh.2))
                exact fun g' t hfails => wpE_recover rfl rfl hfails
              · exact Prog.wpE_throw (hbefore _)
    · exact Prog.wpE_pure hfresh

/-- Operations that ask for another state do not enter `cancelling`. -/
theorem wp_row_course {p : Prog Row Answer α} {s : State} (hs : s ≠ .cancelling)
    (hp : p.Within (Moves s)) (hfresh : Fresh g) :
    p.wp courseMonitor (fun g' _ => Fresh g') g := by
  refine Prog.wp_of_within ?_ ?_ hp hfresh
  · intro g r hg _
    rw [course_read]
    exact ⟨trivial, hg⟩
  · intro g r r' hg _ hmoves
    have hno : enters (.update r r') = false := by
      rcases hmoves with h | ⟨-, h⟩
      · simp [enters, h]
      · simp [enters, h, hs]
    rw [course_update, hno, Bool.or_false]
    exact ⟨trivial, hg⟩

theorem wpE_stopRunning_course (s : Handle) (hfresh : Fresh g) :
    Prog.wpE courseMonitor (stopRunning s)
      (fun g' _ => Fresh g') Recovers g := by
  refine Prog.wpE_bind (Prog.wpE_lift (Prog.wp_mono _ ?_
    (wp_row_course (by decide) (within_setState s .stopping) hfresh)))
  rintro g ⟨changed, s⟩ hfresh
  dsimp only
  split
  · exact Prog.wpE_pure hfresh
  · split
    · refine Prog.wpE_bind (wpE_attempt fun y => ⟨trivial, ?_⟩)
      cases y with
      | error e =>
          rw [course_throw g rfl rfl]
          exact recovers_of_not_entered hfresh.1 (.error e)
      | ok _ =>
          rw [course_call g rfl rfl]
          exact Prog.wpE_bind (Prog.wpE_lift (Prog.wp_mono _ (fun _ _ h => h)
            (wp_row_course (by decide) (within_setYtime s 0 .stopped) hfresh)))
    · refine Prog.wpE_bind (Prog.wpE_lift (Prog.wp_mono _ ?_
        (wp_row_course (by decide) (within_select (Moves .stopped)) hfresh)))
      rintro g r hfresh
      split
      · exact Prog.wpE_bind (Prog.wpE_lift (Prog.wp_mono _ (fun _ _ h => h)
          (wp_row_course (by decide) (within_checkpoint s) hfresh)))
      · exact Prog.wpE_pure hfresh

theorem wpE_doStop_course (event : Option EventStatus) (hfresh : Fresh g)
    (hjob : ∀ g : Course, Fresh g → Stands g job) :
    Prog.wpE courseMonitor (doStop event) (Lands job) Recovers g := by
  refine Prog.wpE_bind (Prog.wpE_mono ?_ (fun _ _ h => h)
    (wpE_checkEvent event (recovers_of_not_entered hfresh.1)))
  intro g' _ hsame
  rw [hsame]
  refine Prog.wpE_bind (wpE_attempt fun y => ⟨trivial, ?_⟩)
  cases y with
  | error e =>
      rw [course_throw g rfl rfl]
      exact recovers_of_not_entered hfresh.1 (.error e)
  | ok _ =>
      rw [course_call g rfl rfl]
      refine Prog.wpE_bind (Prog.wpE_lift (wp_getState_course ?_))
      have hstop : Prog.wpE courseMonitor
          (if g.row.state = .pending ∨ g.row.state = .running then
            stopRunning (fetched.assign g.row) else pure true)
          (fun g' _ => Fresh g') Recovers g := by
        split
        · exact wpE_stopRunning_course _ hfresh
        · exact Prog.wpE_pure hfresh
      refine Prog.wpE_bind (Prog.wpE_mono ?_ (fun _ _ h => h) hstop)
      rintro g stopped hfresh
      cases stopped with
      | false => exact Prog.wpE_pure (hjob g hfresh)
      | true => exact wpE_doPollstate_course _ _ hfresh

theorem wpE_doPost_course (state : Option String) (ytime : Option ℤ)
    (hfresh : Fresh g)
    (hjob : ∀ g : Course, Fresh g → Stands g job) :
    Prog.wpE courseMonitor (doPost state ytime) (Lands job) Recovers g := by
  have hbefore := recovers_of_not_entered hfresh.1
  cases state with
  | some state =>
      refine Prog.wpE_bind (wpE_attempt fun y => ⟨trivial, ?_⟩)
      cases y with
      | error e =>
          rw [course_throw g rfl rfl]
          exact hbefore (.error e)
      | ok _ =>
          rw [course_call g rfl rfl]
          dsimp only
          split
          · refine Prog.wpE_bind (Prog.wpE_lift (wp_getState_course ?_))
            dsimp only
            split
            · exact Prog.wpE_pure trivial
            · split
              · exact Prog.wpE_throw (hbefore _)
              · refine Prog.wpE_bind fun registered => ⟨trivial, ?_⟩
                rw [course_call g rfl rfl]
                cases registered with
                | true => exact Prog.wpE_pure hfresh
                | false => exact wpE_doStop_course none hfresh hjob
          · exact Prog.wpE_throw (hbefore _)
  | none =>
      cases ytime with
      | none => exact Prog.wpE_pure trivial
      | some time =>
          refine Prog.wpE_bind (wpE_attempt fun y => ⟨trivial, ?_⟩)
          cases y with
          | error e =>
              rw [course_throw g rfl rfl]
              exact hbefore (.error e)
          | ok _ =>
              rw [course_call g rfl rfl]
              exact Prog.wpE_bind (Prog.wpE_lift (Prog.wp_mono _
                (fun _ _ _ => Prog.wpE_pure trivial)
                (wp_row_course (by decide) (within_setYtime fetched time .stopped)
                  hfresh)))

end Steps

/-- What a run of `job` leaves behind when it throws. -/
def Leaves (job : Job) (g : Course) (t : Propagation.Thrown) : Prop :=
  if job.isCancelwatch then Fails g t else Recovers g t

theorem wpE_handler_course (job : Job) (g : Course) (hstands : Stands g job) :
    Prog.wpE courseMonitor (handler job) (Lands job) (Leaves job) g := by
  cases job with
  | post state ytime =>
      exact wpE_doPost_course state ytime hstands fun _ h => h
  | precancel =>
      refine Prog.wpE_bind fun evt => ⟨trivial, ?_⟩
      rw [course_call g rfl rfl]
      exact Prog.wpE_pure hstands
  | stop event =>
      exact wpE_doStop_course event hstands fun _ h => h
  | pollstate state nextState =>
      exact wpE_doPollstate_course state nextState hstands
  | cancelwatch watch state =>
      exact wpE_doCancelwatch_course watch state hstands.1 hstands.2
  | ended => exact Prog.wpE_pure trivial

/-- Where a run of `job` ends: an error leaves what `Leaves` says, and the job that is
queued next stands where the chain does. -/
def Ends (job : Job) (g : Course) (r : Outcome × Job) : Prop :=
  (∀ t, r.1 = .threw t → Leaves job g t) ∧ Stands g r.2

theorem wp_work_course (job : Job) (g : Course) (hstands : Stands g job) :
    (work () job).wp courseMonitor (Ends job) g := by
  refine Prog.wp_bind _ (Prog.wp_mono _ ?_ (wpE_handler_course job g hstands))
  intro g r hr
  cases r with
  | error e =>
      refine ⟨fun e' he' => ?_, trivial⟩
      cases he'
      exact hr
  | ok r =>
      cases r with
      | success => exact ⟨fun e he => (by cases he), trivial⟩
      | «continue» next => exact ⟨fun e he => (by cases he), hr⟩
      | retry => exact ⟨fun e he => (by cases he), hr⟩

/-- The ghost state is the course of the chain. -/
theorem relyGuarantee_course :
    RelyGuarantee (ι := Unit) work courseMonitor Stands (fun _ => Ends)
      (fun evs s γ => γ () = ⟨s, evs.any fun ie => enters ie.2,
        evs.any fun ie => throws ie.2, evs.any fun ie => silent ie.2⟩)
      (fun _ _ _ => True) where
  body _ job g hstands := wp_work_course job g hstands
  ready _ _ _ _ h := h.2
  rely evs s γ h _ := by
    show s = (γ ()).row
    rw [h]
  step evs s γ i e h hat _ _ := by
    rw [Function.update_self, h]
    simp [courseMonitor]

/-- For a chain that is alone, and a run of a handler that ends with an exception or does
something undefined after the status has entered `cancelling`: the status is completed or
cancelled then exactly if the run was not that of a queued `do_cancelwatch` in which a call
has thrown, and no cancellation of a child has failed without a message. -/
theorem recovered_iff {c₀ c c' : Chains Unit} {tr : List (Chains.Label Unit)}
    {job next : Job} {es : List (Event Row Answer)} {t : Propagation.Thrown}
    (h₀ : ∃ state ytime, c₀.client () = .idle (.post state ytime))
    (h : Run work c₀ tr c)
    (hs : Step work c (.finish () () job es (.threw t) next) c')
    (hent : (events tr).any (fun ie => enters ie.2) = true) :
    (c.store.state = .completed ∨ c.store.state = .cancelled) ↔
      ¬ (job.isCancelwatch = true ∧
        (events tr).any (fun ie => throws ie.2) = true) ∧
      (events tr).any (fun ie => silent ie.2) = false := by
  have hinit : ∀ i : Unit, ∃ job, c₀.client i = .idle job ∧
      Stands ⟨c₀.store, false, false, false⟩ job := by
    intro i
    obtain ⟨state, ytime, hi⟩ := h₀
    exact ⟨_, hi, rfl, rfl, rfl⟩
  obtain ⟨hcourse, hkeeps, -⟩ := Run.relyGuarantee
    (g := fun _ => ⟨c₀.store, false, false, false⟩) relyGuarantee_course rfl hinit h
    (fun _ _ _ _ _ => trivial)
  cases hs with
  | finish _ _ _ _ _ _ hi =>
      have hends := hkeeps ()
      rw [hi, hcourse] at hends
      have hleaves := hends.1 t rfl
      unfold Leaves at hleaves
      cases hjob : job.isCancelwatch with
      | true =>
          rw [hjob, if_pos rfl] at hleaves
          rcases hleaves with ⟨hstate, hthrew, hsilent⟩ | ⟨hstate, hthrew, -, -⟩
          · refine iff_of_true (.inl hstate) ⟨fun hthrown => ?_, hsilent⟩
            rw [hthrown.2] at hthrew
            cases hthrew
          · refine iff_of_false (fun hrec => ?_) fun h => h.1 ⟨rfl, hthrew⟩
            have hrow : c.store.state = .cancelling := hstate
            rw [hrow] at hrec
            rcases hrec with hrec | hrec <;> cases hrec
      | false =>
          rw [hjob] at hleaves
          have hrec := hleaves hent
          cases hsilent : (events tr).any fun ie => silent ie.2 with
          | true =>
              rw [hsilent] at hrec
              have hrow : c.store.state = .cancelling := hrec
              rw [hrow]
              refine iff_of_false (fun hrec => ?_) fun h => nomatch h.2
              rcases hrec with hrec | hrec <;> cases hrec
          | false =>
              rw [hsilent] at hrec
              exact iff_of_true hrec ⟨fun h => Bool.false_ne_true h.1, rfl⟩

/-- A cancellation whose `do_cancelwatch` has been queued once, and the answer to its
next look at the child. -/
def watchedAgain (y : Answer (.fetch "child-cancel")) : List (Move Unit Answer Unit) :=
  patientCancel.take 13 ++ [.call () (), .answer () (.fetch "child-cancel") y]

/-- The child has failed: the status is completed again. -/
theorem recovered_childFailed :
    ∃ tr c c' es e, Run work completedStatus tr c ∧
      Step work c (.finish () () (.cancelwatch ["child-cancel"] "CANCELLING") es
        (.threw (.error e)) .ended) c' ∧
      (c.store.state = .completed ∨ c.store.state = .cancelled) := by
  have hrun : (scheduleAll work completedStatus (watchedAgain
      (.ok ⟨.completed, 100, 500, ["failed"]⟩) ++ [.go (), .go ()])).map
        (fun p => (p.2.client (), (events p.1).any (fun ie => enters ie.2),
          (events p.1).any (fun ie => throws ie.2),
          (events p.1).any (fun ie => silent ie.2))) =
    some (.busy () (.cancelwatch ["child-cancel"] "CANCELLING")
      [.call (.fetch "child-cancel") (.ok ⟨.completed, 100, 500, ["failed"]⟩),
        .read cancellingRow, .update cancellingRow completedStatus.store]
      (.ret (.threw (.error ⟨500, "failed"⟩), .ended)), true, false, false) := by rfl
  obtain ⟨tr, c, hr, hf⟩ := exists_run_of_scheduleAll hrun
  simp only [Prod.mk.injEq] at hf
  obtain ⟨hc, hent, hthrew, hsilent⟩ := hf
  have hstep : Step work c _ _ := .finish c () _ _ _ _ _ hc
  refine ⟨tr, c, _, _, _, hr, hstep, ?_⟩
  refine (recovered_iff ⟨_, _, rfl⟩ hr hstep hent).2 ⟨?_, hsilent⟩
  rw [hthrew]
  exact fun h => by cases h.2

/-- The child cannot be fetched: the status stays in `cancelling`. -/
theorem not_recovered :
    ¬ ∀ (tr : List (Chains.Label Unit)) (c c' : Chains Unit) (job next : Job)
        (es : List (Event Row Answer)) (e : Error), Run work completedStatus tr c →
      Step work c (.finish () () job es (.threw (.error e)) next) c' →
      (events tr).any (fun ie => enters ie.2) = true →
      c.store.state = .completed ∨ c.store.state = .cancelled := by
  intro hall
  have hrun : (scheduleAll work completedStatus (watchedAgain
      (.error ⟨500, "connection refused"⟩))).map
        (fun p => (p.2.client (), p.2.store.state,
          (events p.1).any (fun ie => enters ie.2))) =
    some (.busy () (.cancelwatch ["child-cancel"] "CANCELLING")
      [.call (.fetch "child-cancel") (.error ⟨500, "connection refused"⟩)]
      (.ret (.threw (.error ⟨500, "connection refused"⟩), .ended)), .cancelling, true) := by
    rfl
  obtain ⟨tr, c, hr, hf⟩ := exists_run_of_scheduleAll hrun
  simp only [Prod.mk.injEq] at hf
  obtain ⟨hc, hstate, hent⟩ := hf
  have hrec := hall tr c _ _ _ _ _ hr (.finish c () _ _ _ _ _ hc) hent
  rw [hstate] at hrec
  rcases hrec with h | h <;> cases h

end Cancel

end Gearbox
