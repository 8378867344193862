import Gearbox.Job.Job
import Gearbox.Status.State

/-!
# Running a job

`runJob` is the callback that gearman runs for a job. Nearly everything it calls may
throw, and much of it is code of the worker or goes over the network, so the model takes
the outcome of each of these calls as given: `Outcomes` has one field for each, in the
order of the source. Each of them is called at most once in a run.

The local variables of the callback are `Vars`, together with the number of calls of
`starting()` that returned and of calls of `stopping()`. `run_job` follows these numbers
through all paths: `stopping()` is called whenever the callback has a status and nothing
escapes before (`balanced_iff`).
-/

namespace Gearbox

namespace Worker

open Refinement Jobs Status

/-- The exceptions that the callback tells apart. All but the last are derived from
`std::exception`, and the last also stands for the use of a null pointer. -/
inductive Exn where
  | error (what name : String) (code : ℤ)
  | json (what : String)
  | soci (what : String)
  | workerStop
  | std (what : String)
  | foreign
  deriving DecidableEq, Repr

/-- `Worker::response_t` -/
inductive Response where
  | success
  | error
  | continue
  | retry
  deriving DecidableEq, Repr

/-- The part of the response that the callback itself fills in. -/
structure Content where
  message : String := ""
  status : String := ""
  code : ℤ := 0
  deriving DecidableEq, Repr

/-- The outcomes of what the callback calls. -/
structure Outcomes where
  /-- the name under which the handler was registered, and that of the status -/
  name : String
  statusName : String
  decompress : Except Exn Unit
  parse : Except Exn Unit
  baseUri : Except Exn Unit
  /-- `JobManager::job`; says whether the job is of type `JOB_ASYNC` -/
  decode : Except Exn Bool
  /-- whether the work has a status that is not empty -/
  hasStatus : Except Exn Bool
  fetch : Except Exn Unit
  create : Except Exn Unit
  /-- the copy of the status for the response -/
  respond : Except Exn Unit
  starting : Except Exn Unit
  logEnter : Except Exn Unit
  pushArgument : Except Exn Unit
  parentUri : Except Exn Unit
  state : Except Exn State
  setRunning : Except Exn Bool
  sync : Except Exn State
  /-- `handle_event` -/
  event : Event → Except Exn Unit
  childUri : Except Exn Unit
  preRequest : Except Exn Unit
  checkpoint : Except Exn Unit
  /-- the handler of the worker, with the code that it leaves in the response -/
  handler : Except Exn (Response × ℤ)
  delay : Except Exn Unit
  rollback : Except Exn Unit
  progress : Except Exn ℕ
  addMessage : Except Exn Unit
  fail : Except Exn Unit
  success : Except Exn Unit
  finalState : Except Exn State
  isSuccess : Except Exn Bool
  stopping : Except Exn Unit
  retry : Except Exn Unit
  postRequest : Except Exn Unit

namespace Outcomes

/-- The job is decoded; says whether it is of type `JOB_ASYNC`. -/
def decoded (o : Outcomes) : Except Exn Bool := do
  o.decompress
  o.parse
  o.baseUri
  o.decode

/-- The status of the job is fetched, or a transient one is created. -/
def obtained (o : Outcomes) (async : Bool) : Except Exn Unit := do
  let named ← o.hasStatus
  if async && named then o.fetch else o.create

/-- A pending status is set to `running`. -/
def running (o : Outcomes) : Except Exn Unit := do
  let state ← o.state
  if state = .pending then
    let changed ← o.setRunning
    if !changed then
      let state ← o.sync
      throw (.error ("Invalid status state transition from \"" ++ state2str state ++
        "\" to \"RUNNING\" for status " ++ o.statusName) "PRECONDITION_FAILED" 412)

/-- Everything between `starting()` and the handler. -/
def prepared (o : Outcomes) : Except Exn Unit := do
  o.logEnter
  o.pushArgument
  o.parentUri
  o.running
  o.event .started
  o.childUri
  o.preRequest

/-- The status is completed, unless it is, and the events are handled. -/
def finalised (o : Outcomes) (job : Bool) (resp : Response) (code : ℤ) :
    Except Exn Unit := do
  if resp ≠ .continue ∧ resp ≠ .retry then
    let progress ← o.progress
    if progress ≠ 100 then
      if code ≥ 300 then
        o.addMessage
        o.fail
      else
        o.success
    let state ← o.finalState
    if job then
      if state = .completed ∨ state = .stopped then
        o.event .completed
        let ok ← o.isSuccess
        if ok then o.event .succeeded else o.event .failed
      else if state = .cancelled then
        o.event .cancelled

end Outcomes

/-- The local variables of the callback and how often the status was started and
stopped. -/
structure Vars where
  resp : Response := .success
  content : Content := {}
  job : Bool := false
  status : Bool := false
  responseStatus : Bool := false
  ranjob : Bool := false
  rollback : Bool := false
  started : ℕ := 0
  stopped : ℕ := 0
  deriving DecidableEq, Repr

/-- The first `try` block. -/
def attempt (o : Outcomes) : Code Vars Exn Unit := do
  let async ← liftM o.decoded
  modify fun v => { v with job := true }
  liftM (o.obtained async)
  modify fun v => { v with status := true }
  liftM o.respond
  modify fun v => { v with responseStatus := true }
  liftM o.starting
  modify fun v => { v with started := v.started + 1 }
  liftM o.prepared
  modify fun v => { v with ranjob := true }
  liftM o.checkpoint
  let (resp, code) ← liftM o.handler
  modify fun v => { v with resp := resp }
  if resp = .error then
    throw (.error (o.name ++ " returned unknown error") "INTERNAL_SERVER_ERROR" 500)
  modify fun v => { v with content := ⟨"OK", "OK", code⟩ }

/-- What the `catch` clauses of the first block put into the response. -/
def Exn.content : Exn → Content
  | .error what name code => ⟨what, name, code⟩
  | .json what => ⟨what, "BAD_REQUEST", 400⟩
  | .soci what => ⟨what, "INTERNAL_SERVER_ERROR", 500⟩
  | .workerStop => ⟨"Worker Stop", "GONE", 410⟩
  | .std what => ⟨what, "INTERNAL_SERVER_ERROR", 500⟩
  | .foreign => {}

/-- The `catch` clauses of the first block. The one for `WorkerStop` handles an event and
needs the job and the status of the response for it. -/
def rescue (o : Outcomes) (e : Exn) : Code Vars Exn Unit := do
  match e with
  | .foreign => throw .foreign
  | .workerStop =>
      modify fun v => { v with resp := .error, content := e.content }
      let v ← get
      if v.job && v.responseStatus then liftM (o.event .stopped) else throw .foreign
      modify fun v => { v with rollback := true }
  | _ => modify fun v => { v with content := e.content, rollback := true }

/-- A `catch( const std::exception & )` that only logs. -/
def logged (e : Exn) : Code Vars Exn Unit :=
  if e = .foreign then throw .foreign else pure ()

/-- Nothing was run yet, so the job is tried again. -/
def requeue (o : Outcomes) : Code Vars Exn Unit := do
  let v ← get
  if !v.ranjob && v.job then
    liftM o.delay
    modify fun v => { v with resp := .continue }

/-- The transaction is rolled back, and the status of the response completed. -/
def settle (o : Outcomes) : Code Vars Exn Unit := do
  let v ← get
  tryCatch (if v.rollback || v.resp = .retry then liftM o.rollback else pure ())
    fun _ => pure ()
  if v.responseStatus then
    tryCatch (liftM (o.finalised v.job v.resp v.content.code)) logged

def stop (o : Outcomes) : Code Vars Exn Unit := do
  let v ← get
  if v.status then
    modify fun v => { v with stopped := v.stopped + 1 }
    liftM o.stopping

def afterwards (o : Outcomes) : Code Vars Exn Unit := do
  let v ← get
  if v.resp = .retry && v.job then
    liftM o.retry
  tryCatch (if v.job then liftM o.postRequest else pure ()) logged

/-- What follows the first block. -/
def conclude (o : Outcomes) : Code Vars Exn Unit := do
  requeue o
  settle o
  stop o
  afterwards o

/-- `run_job` -/
def runJob (o : Outcomes) : Code Vars Exn Unit := do
  tryCatch (attempt o) (rescue o)
  conclude o

/-- The callback has stopped the status as often as it has started it. -/
def Balanced (o : Outcomes) : Prop :=
  (outcome (runJob o) {}).2.stopped = (outcome (runJob o) {}).2.started

namespace Outcomes

/-- The exception is caught by the first block: it is derived from `std::exception`, and
if it is `WorkerStop` then the event is handled. -/
def Rescues (o : Outcomes) (e : Exn) (responded : Bool) : Prop :=
  e ≠ .foreign ∧ (e = .workerStop → responded = true ∧ o.event .stopped = .ok ())

/-- The completion of the status throws nothing but `std::exception`. -/
def Finalises (o : Outcomes) (resp : Response) (code : ℤ) : Prop :=
  o.finalised true resp code ≠ .error .foreign

end Outcomes

/-- The steps from the first block to `stopping()`. -/
def Reaches (o : Outcomes) (v : Vars) : Prop :=
  if v.ranjob = false ∧ v.job = true then o.delay = .ok ()
  else v.responseStatus = true → o.Finalises v.resp v.content.code

theorem outcome_requeue (o : Outcomes) (v : Vars) :
    outcome (requeue o) v =
      if v.ranjob = false ∧ v.job = true then
        match o.delay with
        | .ok () => (.ok (), { v with resp := .continue })
        | .error e => (.error e, v)
      else (.ok (), v) := by
  unfold requeue
  rw [outcome_bind]
  simp only [outcome_get, Bool.and_eq_true, Bool.not_eq_true']
  split
  · rw [outcome_bind, outcome_lift]
    cases o.delay with
    | error e => rfl
    | ok u => rfl
  · rfl

theorem outcome_logged (e : Exn) (v : Vars) :
    outcome (logged e) v = (if e = .foreign then .error .foreign else .ok (), v) := by
  unfold logged
  split <;> rfl

theorem outcome_settle (o : Outcomes) {v : Vars} (h : v.responseStatus = true → v.job = true) :
    outcome (settle o) v =
      (if v.responseStatus = true ∧ o.finalised true v.resp v.content.code = .error .foreign
        then .error .foreign else .ok (), v) := by
  unfold settle
  rw [outcome_bind]
  have hrollback : outcome (tryCatch (if v.rollback || v.resp = .retry then liftM o.rollback
      else pure ()) fun _ => pure () : Code Vars Exn Unit) v = (.ok (), v) := by
    rw [outcome_tryCatch]
    by_cases hc : (v.rollback || v.resp = .retry) = true
    · rw [if_pos hc, outcome_lift]
      cases o.rollback with
      | error e => rfl
      | ok u => rfl
    · rw [if_neg hc]
      rfl
  simp only [outcome_get]
  rw [outcome_bind, hrollback]
  dsimp only
  cases hr : v.responseStatus with
  | false => simp
  | true =>
      rw [if_pos rfl, outcome_tryCatch, outcome_lift, h hr]
      cases hf : o.finalised true v.resp v.content.code with
      | ok u => simp
      | error e => simp [outcome_logged]

theorem outcome_stop (o : Outcomes) (v : Vars) :
    outcome (stop o) v =
      if v.status = true then (o.stopping, { v with stopped := v.stopped + 1 })
      else (.ok (), v) := by
  unfold stop
  rw [outcome_bind]
  simp only [outcome_get]
  split
  · rw [outcome_bind]
    rfl
  · rfl

/-- The variables after the last steps are the same as before. -/
theorem outcome_afterwards (o : Outcomes) (v : Vars) :
    ∃ r, outcome (afterwards o) v = (r, v) := by
  unfold afterwards
  rw [outcome_bind]
  simp only [outcome_get]
  have hpost : ∃ r, outcome (tryCatch (if v.job then liftM o.postRequest else pure ())
      logged : Code Vars Exn Unit) v = (r, v) := by
    rw [outcome_tryCatch]
    by_cases hj : v.job = true
    · rw [if_pos hj, outcome_lift]
      cases o.postRequest with
      | error e => exact ⟨_, outcome_logged e v⟩
      | ok u => exact ⟨_, rfl⟩
    · rw [if_neg hj]
      exact ⟨_, rfl⟩
  split
  · rw [outcome_bind, outcome_lift]
    cases o.retry with
    | error e => exact ⟨_, rfl⟩
    | ok u => exact hpost
  · exact hpost

/-- What follows the first block stops the status, if there is one and nothing escapes
before. -/
theorem conclude_counts (o : Outcomes) {v : Vars}
    (h : v.responseStatus = true → v.job = true) :
    (outcome (conclude o) v).2.started = v.started ∧
      (v.status = true → Reaches o v →
        (outcome (conclude o) v).2.stopped = v.stopped + 1) ∧
      (¬ (v.status = true ∧ Reaches o v) →
        (outcome (conclude o) v).2.stopped = v.stopped) := by
  have hstop : ∀ v' : Vars, ∃ r, outcome (do stop o; afterwards o) v' =
      (r, if v'.status = true then { v' with stopped := v'.stopped + 1 } else v') := by
    intro v'
    rw [outcome_bind, outcome_stop]
    by_cases hs : v'.status = true
    · rw [if_pos hs, if_pos hs]
      cases o.stopping with
      | error e => exact ⟨_, rfl⟩
      | ok u => exact outcome_afterwards o _
    · rw [if_neg hs, if_neg hs]
      exact outcome_afterwards o _
  unfold conclude Reaches
  rw [outcome_bind, outcome_requeue]
  by_cases hq : v.ranjob = false ∧ v.job = true
  · rw [if_pos hq, if_pos hq]
    cases hd : o.delay with
    | error e => simp
    | ok u =>
        -- the response `continue` leaves nothing to complete
        obtain ⟨r, hr⟩ := hstop { v with resp := .continue }
        have hfinal : o.finalised true .continue v.content.code ≠ .error .foreign := nofun
        simp only
        rw [outcome_bind, outcome_settle o (v := { v with resp := .continue }) h]
        simp only [hfinal, and_false, if_false]
        rw [hr]
        cases v.status <;> simp
  · rw [if_neg hq, if_neg hq]
    obtain ⟨r, hr⟩ := hstop v
    simp only
    rw [outcome_bind, outcome_settle o h]
    by_cases hf : v.responseStatus = true ∧
        o.finalised true v.resp v.content.code = .error .foreign
    · simp [hf, Outcomes.Finalises]
    · have hreach : v.responseStatus = true → o.Finalises v.resp v.content.code :=
        fun hr hfin => hf ⟨hr, hfin⟩
      rw [if_neg hf]
      simp only
      rw [hr]
      cases v.status with
      | false => simp
      | true => simpa using hreach

/-- The variables after an exception that is caught. -/
def Vars.rescued (v : Vars) (e : Exn) : Vars :=
  { v with resp := if e = .workerStop then .error else v.resp,
           content := e.content, rollback := true }

theorem outcome_rescue {o : Outcomes} {v : Vars} {e : Exn}
    (hjob : v.responseStatus = true → v.job = true)
    (h : o.Rescues e v.responseStatus) :
    outcome (rescue o e) v = (.ok (), v.rescued e) := by
  unfold rescue Vars.rescued
  cases e with
  | workerStop =>
      obtain ⟨hresponse, hevent⟩ := h.2 rfl
      simp only [outcome_bind, outcome_modify, outcome_get, hjob hresponse, hresponse,
        Bool.and_self, if_true, hevent, outcome_lift]
  | foreign => exact absurd rfl h.1
  | error what name code => rfl
  | json what => rfl
  | soci what => rfl
  | std what => rfl

theorem outcome_rescue_error {o : Outcomes} {v : Vars} {e : Exn}
    (h : ¬ o.Rescues e v.responseStatus) :
    ∃ e' v', outcome (rescue o e) v = (.error e', v') ∧ v'.started = v.started ∧
      v'.stopped = v.stopped := by
  unfold rescue
  cases e with
  | foreign => exact ⟨_, _, rfl, rfl, rfl⟩
  | workerStop =>
      simp only [outcome_bind, outcome_modify, outcome_get]
      by_cases hresponse : (v.job && v.responseStatus) = true
      · cases hevent : o.event .stopped with
        | ok u =>
            have hresponded := (Bool.and_eq_true_iff.1 hresponse).2
            exact absurd ⟨nofun, fun _ => ⟨hresponded, hevent⟩⟩ h
        | error e' =>
            refine ⟨e', { v with resp := .error, content := Exn.workerStop.content }, ?_,
              rfl, rfl⟩
            rw [if_pos hresponse, outcome_bind]
            rfl
      · refine ⟨.foreign, { v with resp := .error, content := Exn.workerStop.content }, ?_,
          rfl, rfl⟩
        rw [if_neg hresponse]
        rfl
  | error what name code => exact absurd ⟨nofun, nofun⟩ h
  | json what => exact absurd ⟨nofun, nofun⟩ h
  | soci what => exact absurd ⟨nofun, nofun⟩ h
  | std what => exact absurd ⟨nofun, nofun⟩ h

/-- How the callback goes on after an exception in the first block. -/
theorem thrown_counts {o : Outcomes} {v : Vars} {e : Exn}
    (hjob : v.responseStatus = true → v.job = true)
    (hattempt : outcome (attempt o) {} = (.error e, v)) :
    (outcome (runJob o) {}).2.started = v.started ∧
      (v.status = true → o.Rescues e v.responseStatus → Reaches o (v.rescued e) →
        (outcome (runJob o) {}).2.stopped = v.stopped + 1) ∧
      (¬ (v.status = true ∧ o.Rescues e v.responseStatus ∧ Reaches o (v.rescued e)) →
        (outcome (runJob o) {}).2.stopped = v.stopped) := by
  unfold runJob
  rw [outcome_bind, outcome_tryCatch, hattempt]
  simp only
  by_cases hrescue : o.Rescues e v.responseStatus
  · obtain ⟨hstarted, hstops, hnot⟩ := conclude_counts o (v := v.rescued e) hjob
    rw [outcome_rescue hjob hrescue]
    refine ⟨hstarted, fun hs _ hreach => hstops hs hreach, fun h => hnot fun hboth => ?_⟩
    exact h ⟨hboth.1, hrescue, hboth.2⟩
  · obtain ⟨e', v', hr, hstarted, hstopped⟩ := outcome_rescue_error hrescue
    rw [hr]
    exact ⟨hstarted, fun _ h => absurd h hrescue, fun _ => hstopped⟩

/-- The balance of a callback whose first block throws. -/
theorem balanced_thrown_iff {o : Outcomes} {v : Vars} {e : Exn} (hjob : v.job = true)
    (hstatus : v.status = true) (hattempt : outcome (attempt o) {} = (.error e, v))
    (hstopped : v.stopped = 0) :
    (v.started = 0 →
      (Balanced o ↔ ¬ (o.Rescues e v.responseStatus ∧ Reaches o (v.rescued e)))) ∧
    (v.started = 1 →
      (Balanced o ↔ o.Rescues e v.responseStatus ∧ Reaches o (v.rescued e))) := by
  obtain ⟨hstarted, hstops, hnot⟩ := thrown_counts (fun _ => hjob) hattempt
  unfold Balanced
  by_cases h : o.Rescues e v.responseStatus ∧ Reaches o (v.rescued e)
  · have hone := hstops hstatus h.1 h.2
    constructor
    · intro h₀
      simp [hone, hstarted, h₀, hstopped, h]
    · intro h₁
      simp [hone, hstarted, h₁, hstopped, h]
  · have hzero := hnot fun hall => h hall.2
    constructor
    · intro h₀
      simp [hzero, hstarted, h₀, hstopped, h]
    · intro h₁
      simp [hzero, hstarted, h₁, hstopped, h]

namespace Outcomes

/-- The condition for the balance. Without a job or a status there is nothing to balance.
If `starting()` was not reached or threw, then `stopping()` must not be reached either;
and once it has succeeded, everything that is thrown is caught, the job is put back if it
was not run, and its completion throws nothing but `std::exception`. -/
def Balances (o : Outcomes) : Prop :=
  match o.decoded with
  | .error _ => True
  | .ok async =>
      match o.obtained async with
      | .error _ => True
      | .ok () =>
          match o.respond with
          | .error e => ¬ (o.Rescues e false ∧ o.delay = .ok ())
          | .ok () =>
              match o.starting with
              | .error e => ¬ (o.Rescues e true ∧ o.delay = .ok ())
              | .ok () =>
                  match o.prepared with
                  | .error e => o.Rescues e true ∧ o.delay = .ok ()
                  | .ok () =>
                      match (do o.checkpoint; o.handler) with
                      | .error e => o.Rescues e true ∧
                          o.Finalises (if e = .workerStop then .error else .success)
                            e.content.code
                      | .ok (resp, code) =>
                          o.Finalises resp (if resp = .error then 500 else code)

end Outcomes

/-- The balance of a callback whose first block returns. -/
theorem balanced_returned_iff {o : Outcomes} {v : Vars} (hjob : v.job = true)
    (hstatus : v.status = true) (hattempt : outcome (attempt o) {} = (.ok (), v))
    (hstopped : v.stopped = 0) (hstarted : v.started = 1) : Balanced o ↔ Reaches o v := by
  obtain ⟨hsame, hstops, hnot⟩ := conclude_counts o (v := v) fun _ => hjob
  have hrun : outcome (runJob o) {} = outcome (conclude o) v := by
    unfold runJob
    rw [outcome_bind, outcome_tryCatch, hattempt]
  unfold Balanced
  rw [hrun, hsame, hstarted]
  constructor
  · intro h
    by_contra hreach
    have hzero := hnot fun hboth => hreach hboth.2
    omega
  · intro hreach
    rw [hstops hstatus hreach, hstopped]

/-- The variables when the handler is called. -/
def Vars.working : Vars :=
  { job := true, status := true, responseStatus := true, started := 1, ranjob := true }

/-- The first block once the job is prepared. -/
theorem outcome_attempt {o : Outcomes} {async : Bool} {u u' : Unit}
    (hdecoded : o.decoded = .ok async) (hobtained : o.obtained async = .ok ())
    (hrespond : o.respond = .ok ()) (hstarting : o.starting = .ok u)
    (hprepared : o.prepared = .ok u') :
    outcome (attempt o) {} =
      match (do o.checkpoint; o.handler) with
      | .error e => (.error e, Vars.working)
      | .ok (resp, code) =>
          if resp = .error then
            (.error (.error (o.name ++ " returned unknown error") "INTERNAL_SERVER_ERROR" 500),
              { Vars.working with resp := .error })
          else
            (.ok (), { Vars.working with resp := resp, content := ⟨"OK", "OK", code⟩ }) := by
  simp only [attempt, outcome_bind, outcome_lift, outcome_modify, hdecoded, hobtained,
    hrespond, hstarting, hprepared]
  cases o.checkpoint with
  | error e => rfl
  | ok u =>
      cases o.handler with
      | error e => rfl
      | ok r =>
          obtain ⟨resp, code⟩ := r
          by_cases hresp : resp = .error
          · simp [hresp, Vars.working]
          · simp [hresp, Vars.working]

/-- The balance once the response has the status. -/
theorem balanced_responded_iff {o : Outcomes} {async : Bool} (hdecoded : o.decoded = .ok async)
    (hobtained : o.obtained async = .ok ()) (hrespond : o.respond = .ok ()) :
    Balanced o ↔
      match o.starting with
      | .error e => ¬ (o.Rescues e true ∧ o.delay = .ok ())
      | .ok () =>
          match o.prepared with
          | .error e => o.Rescues e true ∧ o.delay = .ok ()
          | .ok () =>
              match (do o.checkpoint; o.handler) with
              | .error e => o.Rescues e true ∧
                  o.Finalises (if e = .workerStop then .error else .success) e.content.code
              | .ok (resp, code) => o.Finalises resp (if resp = .error then 500 else code) := by
  cases hstarting : o.starting with
  | error e =>
      have hattempt : outcome (attempt o) {} =
          (.error e, { job := true, status := true, responseStatus := true }) := by
        simp [attempt, outcome_bind, hdecoded, hobtained, hrespond, hstarting]
      have hiff := (balanced_thrown_iff rfl rfl hattempt rfl).1 rfl
      simpa [Reaches, Vars.rescued] using hiff
  | ok u =>
      cases hprepared : o.prepared with
      | error e =>
          have hattempt : outcome (attempt o) {} = (.error e,
              { job := true, status := true, responseStatus := true, started := 1 }) := by
            simp [attempt, outcome_bind, hdecoded, hobtained, hrespond, hstarting, hprepared]
          have hiff := (balanced_thrown_iff rfl rfl hattempt rfl).2 rfl
          simpa [Reaches, Vars.rescued] using hiff
      | ok u =>
          have hattempt := outcome_attempt hdecoded hobtained hrespond hstarting hprepared
          cases hhandled : (do o.checkpoint; o.handler) with
          | error e =>
              rw [hhandled] at hattempt
              have hiff := (balanced_thrown_iff rfl rfl hattempt rfl).2 rfl
              simpa [Reaches, Vars.rescued, Vars.working] using hiff
          | ok r =>
              obtain ⟨resp, code⟩ := r
              rw [hhandled] at hattempt
              by_cases hresp : resp = .error
              · simp only [hresp, if_true] at hattempt
                have hiff := (balanced_thrown_iff rfl rfl hattempt rfl).2 rfl
                simpa [Reaches, Vars.rescued, Vars.working, Outcomes.Rescues, Exn.content,
                  hresp] using hiff
              · simp only [hresp, if_false] at hattempt
                have hiff := balanced_returned_iff rfl rfl hattempt rfl rfl
                simpa [Reaches, Vars.working, hresp] using hiff

/-- For every outcome of what the callback calls, it calls `stopping()` as often as it has
called `starting()` with success exactly when the condition holds. -/
theorem balanced_iff (o : Outcomes) : Balanced o ↔ o.Balances := by
  -- without a status nothing is counted
  have hnone : ∀ e v, outcome (attempt o) {} = (.error e, v) → v.responseStatus = false →
      v.status = false → v.started = 0 → v.stopped = 0 → Balanced o := by
    intro e v hattempt hresponse hstatus h₀ h₁
    obtain ⟨hstarted, -, hnot⟩ := thrown_counts (by simp [hresponse]) hattempt
    have hstopped := hnot fun h => absurd h.1 (by simp [hstatus])
    simp [Balanced, hstarted, hstopped, h₀, h₁]
  unfold Outcomes.Balances
  cases hdecoded : o.decoded with
  | error e =>
      have hattempt : outcome (attempt o) {} = (.error e, {}) := by
        simp [attempt, outcome_bind, hdecoded]
      exact iff_of_true (hnone e _ hattempt rfl rfl rfl rfl) trivial
  | ok async =>
      simp only
      cases hobtained : o.obtained async with
      | error e =>
          have hattempt : outcome (attempt o) {} = (.error e, { job := true }) := by
            simp [attempt, outcome_bind, hdecoded, hobtained]
          exact iff_of_true (hnone e _ hattempt rfl rfl rfl rfl) trivial
      | ok u =>
          cases hrespond : o.respond with
          | error e =>
              have hattempt : outcome (attempt o) {} =
                  (.error e, { job := true, status := true }) := by
                simp [attempt, outcome_bind, hdecoded, hobtained, hrespond]
              have hiff := (balanced_thrown_iff rfl rfl hattempt rfl).1 rfl
              simpa [Reaches, Vars.rescued] using hiff
          | ok u => exact balanced_responded_iff hdecoded hobtained hrespond

/-- A job whose status is stopped before the handler is called, and whose on-STOPPED
handler cannot be sent. -/
def unsentStop : Outcomes where
  name := "do_get_stuff_v1"
  statusName := "st-1"
  decompress := .ok ()
  parse := .ok ()
  baseUri := .ok ()
  decode := .ok true
  hasStatus := .ok true
  fetch := .ok ()
  create := .ok ()
  respond := .ok ()
  starting := .ok ()
  logEnter := .ok ()
  pushArgument := .ok ()
  parentUri := .ok ()
  state := .ok .stopping
  setRunning := .ok false
  sync := .ok .stopping
  event ev := if ev = .stopped then
      .error (.error "failed to send" "INTERNAL_SERVER_ERROR" 500) else .ok ()
  childUri := .ok ()
  preRequest := .ok ()
  checkpoint := .error .workerStop
  handler := .ok (.success, 0)
  delay := .ok ()
  rollback := .ok ()
  progress := .ok 100
  addMessage := .ok ()
  fail := .ok ()
  success := .ok ()
  finalState := .ok .stopped
  isSuccess := .ok false
  stopping := .ok ()
  retry := .ok ()
  postRequest := .ok ()

/-- The exception of the event handler leaves the callback, and the status stays
started. -/
theorem not_balanced : ¬ ∀ o, Balanced o := by
  intro h
  have hcounts : ((outcome (runJob unsentStop) {}).2.stopped,
      (outcome (runJob unsentStop) {}).2.started) = (0, 1) := by rfl
  have hbalanced := h unsentStop
  unfold Balanced at hbalanced
  rw [Prod.mk.injEq] at hcounts
  omega

end Worker

end Gearbox
