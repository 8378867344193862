import Gearbox.Cancel.Handlers
import Gearbox.Status.Writes

/-!
# A cancellation waits for what it watches

The ghost state of a chain is the list `due` of the URIs that it has put on its watch
list and not yet seen completed with code 0. Every handler keeps it equal to the watch
list it works on, although that list is consumed as a prefix, sent to the next job and
replaced by a second list for the on-cancel job; at a call of `cancel()` it is empty
(`cancel_waits`).
-/

namespace Gearbox

namespace Cancel

open Agents (Error EventStatus)
open Interleaving Status
open Propagation (Failed Succeeded)

/-- The URI that an event puts on the watch list: the status of a child's cancellation,
unless that has failed already, or the status of the on-cancel job. -/
def putOn : Event Row Answer → Option String
  | .call (.postChild _) (.ok r) => if Failed r.status then none else some r.uri
  | .call .runOnCancel (.ok uri) => some uri
  | _ => none

/-- The URI whose status an event has found completed with code 0. -/
def seenCompleted : Event Row Answer → Option String
  | .call (.fetch uri) (.ok s) => if Succeeded s then some uri else none
  | _ => none

/-- The monitor that keeps the URIs that are due. Nothing may be due when `cancel()` is
called. -/
def watchMonitor : Monitor Row Answer (List String) where
  next due e := (due ++ (putOn e).toList).diff (seenCompleted e).toList
  rely _ _ := True
  guar due
    | .call .cancel _ => due = []
    | _ => True

/-- What is due between two runs: the watch list of a queued `do_cancelwatch`, and
nothing for the other jobs. A chain that has ended may have left something. -/
def Watches (due : List String) : Job → Prop
  | .cancelwatch watch _ => due = watch
  | .ended => True
  | _ => due = []

section Watch

variable {α : Type} {due : List String} {E : List String → Propagation.Thrown → Prop} {job : Job}

/-- A program that only works on the row leaves what is due alone. -/
theorem wp_row_watch {p : Prog Row Answer α} {R : Row → Row → Prop}
    (hp : p.Within R) : p.wp watchMonitor (fun due' _ => due' = due) due := by
  refine Prog.wp_of_within ?_ ?_ hp rfl
  · rintro _ r rfl _
    exact ⟨trivial, by simp [watchMonitor, putOn, seenCompleted]⟩
  · rintro _ r r' rfl _ _
    exact ⟨trivial, by simp [watchMonitor, putOn, seenCompleted]⟩

theorem wpE_plain {p : Prog Row Answer α} {R : Row → Row → Prop} (hp : p.Within R)
    {Q : List String → α → Prop} (hQ : ∀ a, Q due a) :
    Prog.wpE watchMonitor (plain p) Q E due := by
  refine Prog.wpE_lift (Prog.wp_mono _ ?_ (wp_row_watch hp))
  rintro _ a rfl
  exact hQ a

theorem wpE_attemptStatus_watch {p : Prog Row Answer (Except Thrown Unit × Handle)}
    {R : Row → Row → Prop} (hp : p.Within R) {Q : List String → Handle → Prop}
    (hQ : ∀ h, Q due h) (hE : ∀ t, E due t) :
    Prog.wpE watchMonitor (attemptStatus p) Q E due := by
  refine wpE_attemptStatus (Prog.wp_mono _ ?_ (wp_row_watch hp))
  rintro _ r rfl
  exact ⟨fun _ => hQ r.2, fun _ => hE⟩

/-- The loop over the watch list keeps what is due equal to the rest of the list. -/
theorem wpE_watchLoop_watch (watch : List String) (hE : ∀ due t, E due t) :
    Prog.wpE watchMonitor (watchLoop watch) (fun due rest => due = rest) E watch := by
  refine wpE_watchLoop (I := fun rest due => due = rest) (fun _ _ _ _ _ => trivial)
    (fun _ _ _ _ _ => hE _ _) ?_ ?_ ?_ rfl
  · rintro uri rest _ s rfl hp
    have hs : ¬ Succeeded s := fun h => hp h.1
    simp [watchMonitor, putOn, seenCompleted, hs]
  · intro uri rest due s _ _
    exact wpE_attemptStatus_watch (within_endWith _ _ _) (fun _ => hE _ _) (hE _)
  · rintro uri rest _ s rfl hs
    simp [watchMonitor, putOn, seenCompleted, hs]

/-- `cancel()` may be called when nothing is due. -/
theorem wpE_cancelStatus (s : Handle) (hE : ∀ due t, E due t) :
    Prog.wpE watchMonitor (cancelStatus s) (fun due _ => due = []) E [] := by
  refine Prog.wpE_bind fun _ => ⟨rfl, ?_⟩
  exact Prog.wpE_bind (wpE_attemptStatus_watch (within_cancel s)
    (fun _ => Prog.wpE_pure rfl) (hE _))

/-- What the handler of `job` promises: the job that is queued next, `job` itself for a
retry, watches what is due. -/
def Queues (job : Job) (due : List String) : Response → Prop
  | .success => True
  | .continue next => Watches due next
  | .retry => Watches due job

theorem wpE_doCancelwatch (watch : List String) (state : String)
    (hE : ∀ due t, E due t) :
    Prog.wpE watchMonitor (doCancelwatch watch state) (Queues job) E watch := by
  refine Prog.wpE_bind (Prog.wpE_mono ?_ (fun _ _ h => h) (wpE_watchLoop_watch watch hE))
  rintro due rest rfl
  by_cases hrest : due = []
  · subst hrest
    simp only [ne_eq, not_true, if_false]
    have hcancel : Prog.wpE watchMonitor
        (do cancelStatus fetched; pure Response.success) (Queues job) E [] :=
      Prog.wpE_bind (Prog.wpE_mono (fun _ _ _ => Prog.wpE_pure trivial)
        (fun _ _ h => h) (wpE_cancelStatus fetched hE))
    split
    · refine Prog.wpE_bind fun registered => ⟨trivial, ?_⟩
      cases registered with
      | true =>
          refine Prog.wpE_bind (wpE_attempt fun y => ⟨trivial, ?_⟩)
          cases y with
          | error e => exact hE _ _
          | ok _ =>
              refine Prog.wpE_bind (wpE_attempt fun y => ⟨trivial, ?_⟩)
              cases y with
              | error e => exact hE _ _
              | ok uri => exact Prog.wpE_pure rfl
      | false => exact hcancel
    · split
      · exact hcancel
      · exact Prog.wpE_pure trivial
  · simp only [ne_eq, hrest, not_false_eq_true, if_true]
    exact Prog.wpE_pure rfl

/-- The loop over the children puts the URIs it returns on the list. -/
theorem wpE_cancelChildren_watch (children : List String) (hE : ∀ due t, E due t) :
    Prog.wpE watchMonitor (cancelChildren children) (fun due watch => due = watch) E [] := by
  refine wpE_cancelChildren (I := fun watch due => due = watch) (fun _ _ _ _ _ => trivial)
    (fun _ _ _ _ _ => hE _ _) (fun _ _ _ _ _ _ => hE _ _) ?_ rfl
  rintro watch child _ r rfl hr
  simp [watchMonitor, putOn, seenCompleted, hr]

theorem wpE_launch (hE : ∀ due t, E due t) :
    Prog.wpE watchMonitor launch (Queues job) E [] := by
  refine Prog.wpE_bind fun children => ⟨trivial, ?_⟩
  refine Prog.wpE_bind (Prog.wpE_mono ?_ (fun _ _ h => h)
    (wpE_cancelChildren_watch children hE))
  rintro _ watch rfl
  exact wpE_doCancelwatch _ _ hE

end Watch

theorem wpE_doPollstate (state : String) (nextState : Option String) {job : Job}
    (hjob : Watches [] job) :
    Prog.wpE watchMonitor (doPollstate state nextState) (Queues job)
      (fun _ _ => True) [] := by
  refine Prog.wpE_bind (wpE_plain (within_getState Eq fetched) fun p => ?_)
  obtain ⟨current, s⟩ := p
  dsimp only
  split
  · exact Prog.wpE_pure trivial
  · split
    · cases nextState with
      | none => exact Prog.wpE_pure trivial
      | some next =>
          refine Prog.wpE_bind (wpE_attempt fun y => ⟨trivial, ?_⟩)
          cases y with
          | error e => trivial
          | ok _ =>
              dsimp only
              split
              · refine Prog.wpE_bind (wpE_plain (within_setState s _) fun p => ?_)
                obtain ⟨changed, s⟩ := p
                cases changed with
                | false => exact Prog.wpE_pure hjob
                | true =>
                    refine Prog.wpE_tryCatch (wpE_launch fun due t => ?_)
                    cases t with
                    | error e =>
                        exact Prog.wpE_bind (wpE_plain (within_setState s _)
                          fun _ => Prog.wpE_throw trivial)
                    | undefined => exact Prog.wpE_throw trivial
              · trivial
    · exact Prog.wpE_pure rfl

theorem wpE_stopRunning (s : Handle) :
    Prog.wpE watchMonitor (stopRunning s) (fun due _ => due = []) (fun _ _ => True)
      [] := by
  refine Prog.wpE_bind (wpE_plain (within_setState s _) fun p => ?_)
  obtain ⟨changed, s⟩ := p
  cases changed with
  | false => exact Prog.wpE_pure rfl
  | true =>
      dsimp only
      split
      · cases ‹_›
      · split
        · refine Prog.wpE_bind (wpE_attempt fun y => ⟨trivial, ?_⟩)
          cases y with
          | error e => trivial
          | ok _ =>
              exact Prog.wpE_bind (wpE_plain (within_setYtime s 0 .unknown)
                fun _ => Prog.wpE_pure rfl)
        · refine Prog.wpE_bind (wpE_plain (within_select Eq) fun r => ?_)
          split
          · exact Prog.wpE_bind (wpE_plain (within_checkpoint s)
              fun _ => Prog.wpE_pure rfl)
          · exact Prog.wpE_pure rfl

theorem wpE_doStop (event : Option EventStatus) {job : Job} (hjob : Watches [] job) :
    Prog.wpE watchMonitor (doStop event) (Queues job) (fun _ _ => True) [] := by
  refine Prog.wpE_bind (Prog.wpE_mono ?_ (fun _ _ h => h)
    (wpE_checkEvent event fun _ => trivial))
  rintro _ _ rfl
  refine Prog.wpE_bind (wpE_attempt fun y => ⟨trivial, ?_⟩)
  cases y with
  | error e => trivial
  | ok _ =>
      refine Prog.wpE_bind (wpE_plain (within_getState Eq fetched) fun p => ?_)
      have hstop : Prog.wpE watchMonitor (if p.1 = .pending ∨ p.1 = .running then
          stopRunning p.2 else pure true) (fun due _ => due = []) (fun _ _ => True)
          [] := by
        split
        · exact wpE_stopRunning p.2
        · exact Prog.wpE_pure rfl
      refine Prog.wpE_bind (Prog.wpE_mono ?_ (fun _ _ h => h) hstop)
      rintro _ stopped rfl
      cases stopped with
      | false => exact Prog.wpE_pure hjob
      | true => exact wpE_doPollstate _ _ hjob

theorem wpE_doPost (state : Option String) (ytime : Option ℤ) {job : Job}
    (hjob : Watches [] job) :
    Prog.wpE watchMonitor (doPost state ytime) (Queues job) (fun _ _ => True) [] := by
  cases state with
  | some state =>
      refine Prog.wpE_bind (wpE_attempt fun y => ⟨trivial, ?_⟩)
      cases y with
      | error e => trivial
      | ok _ =>
          dsimp only
          split
          · refine Prog.wpE_bind (wpE_plain (within_getState Eq fetched) fun p => ?_)
            split
            · exact Prog.wpE_pure trivial
            · split
              · exact Prog.wpE_throw trivial
              · refine Prog.wpE_bind fun registered => ⟨trivial, ?_⟩
                cases registered with
                | true => exact Prog.wpE_pure rfl
                | false => exact wpE_doStop none hjob
          · exact Prog.wpE_throw trivial
  | none =>
      cases ytime with
      | none => exact Prog.wpE_pure trivial
      | some time =>
          refine Prog.wpE_bind (wpE_attempt fun y => ⟨trivial, ?_⟩)
          cases y with
          | error e => trivial
          | ok _ =>
              exact Prog.wpE_bind (wpE_plain (within_setYtime fetched time .unknown)
                fun _ => Prog.wpE_pure trivial)

/-- Every handler starts with what its job watches and ends with what the next one
does. -/
theorem wpE_handler (job : Job) (due : List String) (hdue : Watches due job) :
    Prog.wpE watchMonitor (handler job) (Queues job) (fun _ _ => True) due := by
  cases job with
  | post state ytime =>
      have hnone : due = [] := hdue
      rw [hnone]
      exact wpE_doPost state ytime rfl
  | precancel =>
      have hnone : due = [] := hdue
      rw [hnone]
      exact Prog.wpE_bind fun evt => ⟨trivial, rfl⟩
  | stop event =>
      have hnone : due = [] := hdue
      rw [hnone]
      exact wpE_doStop event rfl
  | pollstate state nextState =>
      have hnone : due = [] := hdue
      rw [hnone]
      exact wpE_doPollstate state nextState rfl
  | cancelwatch watch state =>
      have hwatch : due = watch := hdue
      rw [hwatch]
      exact wpE_doCancelwatch watch state fun _ _ => trivial
  | ended => exact Prog.wpE_pure trivial

theorem wp_work_watch (job : Job) (due : List String) (hdue : Watches due job) :
    (work () job).wp watchMonitor (fun due r => Watches due r.2) due := by
  refine Prog.wp_bind _ (Prog.wp_mono _ ?_ (wpE_handler job due hdue))
  intro due r hr
  cases r with
  | error e => trivial
  | ok r =>
      cases r with
      | success => trivial
      | «continue» next => exact hr
      | retry => exact hr

section Runs

variable {ι : Type} [DecidableEq ι]

theorem relyGuarantee_watch :
    RelyGuarantee (ι := ι) work watchMonitor Watches
      (fun _ _ due r => Watches due r.2) (fun _ _ _ => True) (fun _ _ _ => True) where
  body _ job due hdue := wp_work_watch job due hdue
  ready _ _ _ _ h := h
  rely _ _ _ _ _ := trivial
  step _ _ _ _ _ _ _ _ _ := trivial

/-- The URIs that are due for a chain after the events `evs`. -/
def due (evs : Trace ι) (i : ι) : List String :=
  ghost watchMonitor (fun _ => []) evs i

/-- What is due stays due until it is seen completed. -/
theorem mem_due_append {evs evs' : Trace ι} {i : ι} {uri : String}
    (hdue : uri ∈ due evs i) (hseen : ∀ e, (i, e) ∈ evs' → seenCompleted e ≠ some uri) :
    uri ∈ due (evs ++ evs') i := by
  induction evs' generalizing evs with
  | nil => simpa using hdue
  | cons ie evs' ih =>
      obtain ⟨j, e⟩ := ie
      rw [List.append_cons]
      refine ih ?_ fun e' he' => hseen e' (List.mem_cons_of_mem _ he')
      unfold due at hdue ⊢
      rw [ghost_snoc]
      by_cases hij : i = j
      · subst hij
        rw [Function.update_self]
        have hne := hseen e List.mem_cons_self
        have hput : uri ∈ ghost watchMonitor (fun _ => []) evs i ++ (putOn e).toList :=
          List.mem_append_left _ hdue
        cases hs : seenCompleted e with
        | none => simpa [watchMonitor, hs] using hput
        | some uri' =>
            have hne' : uri ≠ uri' := fun h => hne (by rw [hs, h])
            simp only [watchMonitor, hs, Option.toList_some, List.diff_cons,
              List.diff_nil]
            exact (List.mem_erase_of_ne hne').2 hput
      · rwa [Function.update_of_ne hij]

theorem mem_due_of_putOn {evs : Trace ι} {i : ι} {e : Event Row Answer} {uri : String}
    (hput : putOn e = some uri) (hseen : seenCompleted e = none) :
    uri ∈ due (evs ++ [(i, e)]) i := by
  unfold due
  rw [ghost_snoc, Function.update_self]
  simp [watchMonitor, hput, hseen]

theorem seenCompleted_of_putOn {e : Event Row Answer} {uri : String}
    (hput : putOn e = some uri) : seenCompleted e = none := by
  unfold putOn at hput
  split at hput
  · rfl
  · rfl
  · cases hput

/-- A URI that was put on the watch list is due until it is seen completed. -/
theorem seen_or_due (evs evs' : Trace ι) (i : ι) {e : Event Row Answer} {uri : String}
    (hput : putOn e = some uri) :
    (∃ e', (i, e') ∈ evs' ∧ seenCompleted e' = some uri) ∨
      uri ∈ due (evs ++ (i, e) :: evs') i := by
  by_cases hseen : ∃ e', (i, e') ∈ evs' ∧ seenCompleted e' = some uri
  · exact .inl hseen
  · right
    rw [List.append_cons]
    refine mem_due_append (mem_due_of_putOn hput (seenCompleted_of_putOn hput)) ?_
    intro e' he' hs
    exact hseen ⟨e', he', hs⟩

/-- In every interleaving of any number of chains: when a chain calls `cancel()`, every
URI it ever put on its watch list has been seen completed with code 0 since, and the
watch list of a queued `do_cancelwatch` still has every URI that has not. -/
theorem cancel_waits {c₀ c : Chains ι} {tr : List (Chains.Label ι)}
    (h₀ : ∀ i, ∃ state ytime, c₀.client i = .idle (.post state ytime))
    (h : Run work c₀ tr c) (i : ι) :
    (∀ evs y post, events tr = evs ++ (i, .call .cancel y) :: post →
      ∀ pre e evs' uri, evs = pre ++ (i, e) :: evs' → putOn e = some uri →
        ∃ e', (i, e') ∈ evs' ∧ seenCompleted e' = some uri) ∧
    (∀ watch state, c.client i = .idle (.cancelwatch watch state) →
      ∀ pre e evs' uri, events tr = pre ++ (i, e) :: evs' → putOn e = some uri →
        (∃ e', (i, e') ∈ evs' ∧ seenCompleted e' = some uri) ∨ uri ∈ watch) := by
  have hinit : ∀ i, ∃ job, c₀.client i = .idle job ∧ Watches [] job := by
    intro i
    obtain ⟨state, ytime, hi⟩ := h₀ i
    exact ⟨_, hi, rfl⟩
  obtain ⟨-, hkeeps, hmeets⟩ := Run.relyGuarantee relyGuarantee_watch trivial hinit h
    (fun _ _ _ _ _ => trivial)
  constructor
  · intro evs y post hevs pre e evs' uri hsplit hput
    have hnone : due evs i = [] := (hmeets evs i _ post hevs).1
    rcases seen_or_due pre evs' i hput with hseen | hdue
    · exact hseen
    · rw [← hsplit, hnone] at hdue
      cases hdue
  · intro watch state hi pre e evs' uri hsplit hput
    have hwatch := hkeeps i
    rw [hi] at hwatch
    have hall : due (events tr) i = watch := hwatch
    rcases seen_or_due pre evs' i hput with hseen | hdue
    · exact .inl hseen
    · rw [← hsplit, hall] at hdue
      exact .inr hdue

end Runs

/-- A completed status and one request to cancel it. -/
def completedStatus : Chains Unit where
  store := { state := .completed, progress := 100, code := 0, ytime := -1,
             failures := 0, concurrency := 0 }
  client _ := .idle (.post (some "CANCELLED") none)

/-- A child is cancelled, the on-cancel job is run, and both are watched until they have
completed; the child takes two runs of `do_cancelwatch`. -/
def patientCancel : List (Move Unit Answer Unit) :=
  [.call () (), .answer () (.respProgress 1) (.ok ()), .go (),
   .answer () .onPrecancel false, .answer () (.respProgress 10) (.ok ()), .go (), .go (),
   .answer () (.respProgress 40) (.ok ()), .go (),
   .answer () .children ["child"],
   .answer () (.postChild "child") (.ok ⟨0, .fresh, "child-cancel"⟩),
   .answer () (.fetch "child-cancel") (.ok ⟨.running, 50, -1, []⟩), .finish (),
   .call () (), .answer () (.fetch "child-cancel") (.ok ⟨.completed, 100, 0, []⟩),
   .answer () .onCancel true, .answer () (.respProgress 70) (.ok ()),
   .answer () .runOnCancel (.ok "on-cancel"), .finish (),
   .call () (), .answer () (.fetch "on-cancel") (.ok ⟨.completed, 100, 0, []⟩),
   .answer () .cancel ()]

theorem cancel_waits_patient :
    ∃ tr c, Run work completedStatus tr c ∧
      (∃ evs, events tr = evs ++ [((), .call .cancel ())]) ∧
      ∀ evs y post, events tr = evs ++ ((), .call .cancel y) :: post →
        ∀ pre e evs' uri, evs = pre ++ ((), e) :: evs' → putOn e = some uri →
          ∃ e', ((), e') ∈ evs' ∧ seenCompleted e' = some uri := by
  have hrun : (scheduleAll work completedStatus patientCancel).map
      (fun p => (events p.1).getLast?) = some (some ((), .call .cancel ())) := by rfl
  obtain ⟨tr, c, hr, hlast⟩ := exists_run_of_scheduleAll hrun
  refine ⟨tr, c, hr, ?_, (cancel_waits (fun _ => ⟨_, _, rfl⟩) hr ()).1⟩
  obtain ⟨evs, hevs⟩ := List.getLast?_eq_some_iff.1 hlast
  exact ⟨evs, hevs⟩

end Cancel

end Gearbox
