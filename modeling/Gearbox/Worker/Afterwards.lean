import Gearbox.Worker.RunJob

/-!
# Follow-up jobs

A handler queues follow-up jobs with `afterwards()`. The queue belongs to the worker, and
`post_request` empties it at the end of `run_job`: each entry is taken out and then run, or
delayed if it has a delay. `run_job` clears the queue if the reply is a failure, and it
swallows the exceptions of `post_request`.

The entries here carry the number of the request that queued them, which the source does
not keep. What the callback calls has the outcomes that a request gives it, as in
`runJob`, and the outcome of running or delaying a follow-up job is given by its place in
the loop of `post_request`.

A session also counts how often `run_job` itself puts the job of the request into the
delay queue.
-/

namespace Gearbox

namespace Afterwards

open Refinement Worker

/-- `QueueEntry`, with the number of the request that has queued it -/
structure QueueEntry where
  request : ℕ
  job : String
  delay : ℤ
  deriving DecidableEq, Repr

/-- A request to a worker: the outcomes of what the callback calls, the jobs and delays
that the handler queues, and the outcomes of dispatching follow-up jobs. -/
structure Request where
  outcomes : Outcomes
  queued : List (String × ℤ)
  dispatch : ℕ → Except Exn Unit

/-- The state of the worker during a request. -/
structure Session where
  vars : Vars := {}
  afterwards : List QueueEntry := []
  /-- the entries that `post_request` has taken out, to be run or delayed -/
  dispatched : List QueueEntry := []
  /-- how often `run_job` has put the job into the delay queue -/
  delayed : ℕ := 0
  deriving DecidableEq, Repr

/-- A program that works on the local variables. -/
def onVars (m : Code Vars Exn α) : Code Session Exn α :=
  Code.mk fun s => ((outcome m s.vars).1, { s with vars := (outcome m s.vars).2 })

@[simp] theorem outcome_onVars (m : Code Vars Exn α) (s : Session) :
    outcome (onVars m) s = ((outcome m s.vars).1, { s with vars := (outcome m s.vars).2 }) :=
  rfl

namespace Request

/-- The entries that the handler queues in the request with this number. -/
def entries (r : Request) (n : ℕ) : List QueueEntry :=
  r.queued.map fun (job, delay) => ⟨n, job, delay⟩

end Request

/-- The first `try` block. -/
def attempt (n : ℕ) (r : Request) : Code Session Exn Unit := do
  let async ← liftM r.outcomes.decoded
  onVars (modify fun v => { v with job := true })
  liftM (r.outcomes.obtained async)
  onVars (modify fun v => { v with status := true })
  liftM r.outcomes.respond
  onVars (modify fun v => { v with responseStatus := true })
  liftM r.outcomes.starting
  onVars (modify fun v => { v with started := v.started + 1 })
  liftM r.outcomes.prepared
  onVars (modify fun v => { v with ranjob := true })
  liftM r.outcomes.checkpoint
  -- the handler queues its follow-up jobs, whether it returns or throws
  modify fun s => { s with afterwards := s.afterwards ++ r.entries n }
  let (resp, code) ← liftM r.outcomes.handler
  onVars (modify fun v => { v with resp := resp })
  if resp = .error then
    throw (.error (r.outcomes.name ++ " returned unknown error") "INTERNAL_SERVER_ERROR" 500)
  onVars (modify fun v => { v with content := ⟨"OK", "OK", code⟩ })

/-- Nothing was run yet, so the job is tried again. -/
def requeue (r : Request) : Code Session Exn Unit := do
  let s ← get
  if !s.vars.ranjob && s.vars.job then
    liftM r.outcomes.delay
    modify fun s => { s with delayed := s.delayed + 1 }
    onVars (modify fun v => { v with resp := .continue })

/-- The handler wants to be called again. -/
def retry (r : Request) : Code Session Exn Unit := do
  let s ← get
  if s.vars.resp = .retry && s.vars.job then
    liftM r.outcomes.retry
    modify fun s => { s with delayed := s.delayed + 1 }

/-- The loop of `post_request`. -/
def drain (dispatch : ℕ → Except Exn Unit) : ℕ → List QueueEntry → Code Session Exn Unit
  | _, [] => pure ()
  | i, next :: rest => do
      modify fun s => { s with afterwards := rest, dispatched := s.dispatched ++ [next] }
      liftM (dispatch i)
      drain dispatch (i + 1) rest

/-- `Worker::post_request` -/
def postRequest (r : Request) : Code Session Exn Unit := do
  let s ← get
  drain r.dispatch 0 s.afterwards

/-- `Worker::clear_afterwards`, which is called if the job has failed. -/
def clearAfterwards : Code Session Exn Unit := do
  let s ← get
  if s.vars.content.code ≥ 300 then
    modify fun s => { s with afterwards := [] }

/-- `run_job` up to the reply code. -/
def perform (n : ℕ) (r : Request) : Code Session Exn Unit := do
  tryCatch (attempt n r) fun e => onVars (rescue r.outcomes e)
  requeue r
  onVars (settle r.outcomes)
  onVars (stop r.outcomes)
  retry r

/-- `run_job`, which returns the content of the reply. -/
def runJob (n : ℕ) (r : Request) : Code Session Exn Content := do
  perform n r
  clearAfterwards
  let s ← get
  tryCatch (if s.vars.job then postRequest r else pure ()) fun e => onVars (logged e)
  let s ← get
  return s.vars.content

/-- How a request went: the reply or the exception that has left the callback, the
follow-up jobs that were dispatched and those that are still in the queue. -/
structure Record where
  request : ℕ
  reply : Except Exn Content
  dispatched : List QueueEntry
  left : List QueueEntry
  deriving DecidableEq

/-- `Worker::run`: an exception that leaves the callback ends the worker. -/
def run : ℕ → List QueueEntry → List Request → List Record
  | _, _, [] => []
  | n, queue, r :: rs =>
      match outcome (runJob n r) { afterwards := queue } with
      | (.ok reply, s) =>
          ⟨n, .ok reply, s.dispatched, s.afterwards⟩ :: run (n + 1) s.afterwards rs
      | (.error e, s) => [⟨n, .error e, s.dispatched, s.afterwards⟩]

/-- The follow-up jobs that were dispatched belong to the request, none of its own is left
when the callback returns, and none of its own is dispatched if the reply is a failure. -/
def Record.Own (record : Record) : Prop :=
  (∀ e ∈ record.dispatched, e.request = record.request) ∧
    ∀ reply, record.reply = .ok reply →
      (∀ e ∈ record.left, e.request ≠ record.request) ∧
      (300 ≤ reply.code → ∀ e ∈ record.dispatched, e.request ≠ record.request)

namespace Request

/-- What comes before `ranjob` is set. -/
def setup (r : Request) : Except Exn Unit := do
  let async ← r.outcomes.decoded
  r.outcomes.obtained async
  r.outcomes.respond
  r.outcomes.starting
  r.outcomes.prepared

/-- What comes before the handler is called. -/
def called (r : Request) : Except Exn Unit := do
  r.setup
  r.outcomes.checkpoint

/-- The handler is called and returns a response and a code. -/
def handled (r : Request) : Except Exn (Response × ℤ) := do
  r.called
  r.outcomes.handler

/-- The code that the first block and its `catch` clauses leave for the reply. -/
def code (r : Request) : ℤ :=
  match r.handled with
  | .error e => e.content.code
  | .ok (resp, code) => if resp = .error then 500 else code

/-- If the handler is called and the code is not that of a failure, then every follow-up
job but the last one can be dispatched. -/
def Dispatches (r : Request) : Prop :=
  r.called = .ok () → r.code < 300 → ∀ i, i + 1 < r.queued.length → r.dispatch i = .ok ()

/-- The job was decoded, and something failed before the handler was to be called. -/
def Unstarted (r : Request) : Prop :=
  (∃ async, r.outcomes.decoded = .ok async) ∧ ∃ e, r.setup = .error e

/-- The handler wants to be called again. -/
def Retried (r : Request) : Prop :=
  ∃ code, r.handled = .ok (.retry, code)

end Request

section Attempt

/-- The first block works on the variables as `Worker.attempt` does, and queues what the
handler queues. -/
theorem outcome_attempt (n : ℕ) (r : Request) (s : Session) :
    outcome (attempt n r) s = ((outcome (Worker.attempt r.outcomes) s.vars).1,
      { s with vars := (outcome (Worker.attempt r.outcomes) s.vars).2,
               afterwards := if r.called = .ok () then s.afterwards ++ r.entries n
                 else s.afterwards }) := by
  unfold attempt Worker.attempt Request.called Request.setup
  cases r.outcomes.decoded with
  | error e => simp [outcome_bind]
  | ok async =>
      cases hobtained : r.outcomes.obtained async with
      | error e => simp [outcome_bind, hobtained]
      | ok u =>
          cases r.outcomes.respond with
          | error e => simp [outcome_bind, hobtained]
          | ok u =>
              cases r.outcomes.starting with
              | error e => simp [outcome_bind, hobtained]
              | ok u =>
                  cases r.outcomes.prepared with
                  | error e => simp [outcome_bind, hobtained]
                  | ok u =>
                      cases r.outcomes.checkpoint with
                      | error e => simp [outcome_bind, hobtained]
                      | ok u =>
                          cases r.outcomes.handler with
                          | error e => simp [outcome_bind, hobtained]
                          | ok reply =>
                              cases hresp : reply.1 <;>
                                simp [outcome_bind, hobtained, hresp]

/-- What holds of the variables after the first block and its `catch` clauses. -/
structure Tried (r : Request) (v : Vars) : Prop where
  code : v.content.code = r.code
  responded : v.responseStatus = true → v.job = true
  job : v.job = true ↔ ∃ async, r.outcomes.decoded = .ok async
  ranjob : v.ranjob = true ↔ r.setup = .ok ()
  resp : v.resp = .retry ↔ r.Retried

/-- How the first block ends when the handler is not reached. -/
theorem attempt_unready {r : Request} {e : Exn} (h : r.setup = .error e) :
    ∃ v, outcome (Worker.attempt r.outcomes) {} = (.error e, v) ∧ v.resp = .success ∧
      v.ranjob = false ∧ (v.responseStatus = true → v.job = true) ∧
      (v.job = true ↔ ∃ async, r.outcomes.decoded = .ok async) := by
  unfold Request.setup at h
  unfold Worker.attempt
  cases hdecoded : r.outcomes.decoded with
  | error e' =>
      simp only [hdecoded, error_bind, Except.error.injEq] at h
      subst h
      refine ⟨{}, ?_, rfl, rfl, nofun, ?_⟩
      · simp [outcome_bind]
      · simp
  | ok async =>
      simp only [hdecoded, ok_bind] at h
      cases hobtained : r.outcomes.obtained async with
      | error e' =>
          simp only [hobtained, error_bind, Except.error.injEq] at h
          subst h
          refine ⟨{ job := true }, ?_, rfl, rfl, nofun, ?_⟩
          · simp [outcome_bind, hobtained]
          · simp
      | ok u =>
          simp only [hobtained, ok_bind] at h
          cases hrespond : r.outcomes.respond with
          | error e' =>
              simp only [hrespond, error_bind, Except.error.injEq] at h
              subst h
              refine ⟨{ job := true, status := true }, ?_, rfl, rfl, nofun, ?_⟩
              · simp [outcome_bind, hobtained]
              · simp
          | ok u =>
              simp only [hrespond, ok_bind] at h
              cases hstarting : r.outcomes.starting with
              | error e' =>
                  simp only [hstarting, error_bind, Except.error.injEq] at h
                  subst h
                  refine ⟨{ job := true, status := true, responseStatus := true }, ?_, rfl,
                    rfl, fun _ => rfl, ?_⟩
                  · simp [outcome_bind, hobtained]
                  · simp
              | ok u =>
                  simp only [hstarting, ok_bind] at h
                  refine ⟨{ job := true, status := true, responseStatus := true, started := 1 },
                    ?_, rfl, rfl, fun _ => rfl, ?_⟩
                  · simp [outcome_bind, hobtained, h]
                  · simp

/-- A caught exception of the first block changes the variables only. -/
theorem rescued_of_outcome {r : Request} {n : ℕ} {s : Session} {queue : List QueueEntry}
    {e : Exn} {v : Vars}
    (h : outcome (tryCatch (attempt n r) fun e => onVars (rescue r.outcomes e))
      { afterwards := queue } = (.ok (), s))
    (hattempt : outcome (Worker.attempt r.outcomes) {} = (.error e, v))
    (hjob : v.responseStatus = true → v.job = true) :
    s = { vars := v.rescued e,
          afterwards := if r.called = .ok () then queue ++ r.entries n else queue } := by
  rw [outcome_tryCatch, outcome_attempt, hattempt] at h
  simp only [outcome_onVars] at h
  by_cases hrescue : r.outcomes.Rescues e v.responseStatus
  · rw [outcome_rescue hjob hrescue] at h
    exact (Prod.mk.inj h).2.symm
  · obtain ⟨e', v', hr, -, -⟩ := outcome_rescue_error hrescue
    rw [hr] at h
    exact absurd (Prod.mk.inj h).1 nofun

/-- The first block returns to the rest of the callback in such variables. -/
theorem tried {r : Request} {n : ℕ} {s : Session} {queue : List QueueEntry}
    (h : outcome (tryCatch (attempt n r) fun e => onVars (rescue r.outcomes e))
      { afterwards := queue } = (.ok (), s)) :
    ∃ v, Tried r v ∧
      s = { vars := v, afterwards := if r.called = .ok () then queue ++ r.entries n else queue }
    := by
  cases hsetup : r.setup with
  | error e =>
      obtain ⟨v, hattempt, hresp, hranjob, hresponded, hjob⟩ := attempt_unready hsetup
      have hhandled : r.handled = .error e := by
        simp [Request.handled, Request.called, hsetup]
      refine ⟨v.rescued e, ⟨?_, hresponded, hjob, ?_, ?_⟩,
        rescued_of_outcome h hattempt hresponded⟩
      · simp [Vars.rescued, Request.code, hhandled]
      · simp [Vars.rescued, hranjob, hsetup]
      · by_cases he : e = .workerStop
        · simp [Vars.rescued, he, Request.Retried, hhandled]
        · simp [Vars.rescued, he, hresp, Request.Retried, hhandled]
  | ok u =>
      have hprepared := hsetup
      unfold Request.setup at hprepared
      obtain ⟨async, hdecoded, hprepared⟩ := bind_eq_ok.1 hprepared
      obtain ⟨⟨⟩, hobtained, hprepared⟩ := bind_eq_ok.1 hprepared
      obtain ⟨⟨⟩, hrespond, hprepared⟩ := bind_eq_ok.1 hprepared
      obtain ⟨⟨⟩, hstarting, hprepared⟩ := bind_eq_ok.1 hprepared
      have hattempt := Worker.outcome_attempt hdecoded hobtained hrespond hstarting hprepared
      have hhandled : r.handled = (do r.outcomes.checkpoint; r.outcomes.handler) := by
        simp [Request.handled, Request.called, hsetup]
      rw [← hhandled] at hattempt
      cases hreply : r.handled with
      | error e =>
          rw [hreply] at hattempt
          refine ⟨_, ⟨?_, fun _ => rfl, ?_, ?_, ?_⟩,
            rescued_of_outcome h hattempt fun _ => rfl⟩
          · simp [Vars.rescued, Request.code, hreply]
          · simp [Vars.rescued, Vars.working, hdecoded]
          · simp [Vars.rescued, Vars.working, hsetup]
          · by_cases he : e = .workerStop
            · simp [Vars.rescued, he, Request.Retried, hreply]
            · simp [Vars.rescued, he, Vars.working, Request.Retried, hreply]
      | ok reply =>
          obtain ⟨resp, code⟩ := reply
          rw [hreply] at hattempt
          simp only at hattempt
          by_cases hresp : resp = .error
          · rw [if_pos hresp] at hattempt
            refine ⟨_, ⟨?_, fun _ => rfl, ?_, ?_, ?_⟩,
              rescued_of_outcome h hattempt fun _ => rfl⟩
            · simp [Vars.rescued, Exn.content, Request.code, hreply, hresp]
            · simp [Vars.rescued, Vars.working, hdecoded]
            · simp [Vars.rescued, Vars.working, hsetup]
            · simp [Vars.rescued, Request.Retried, hreply, hresp]
          · rw [if_neg hresp] at hattempt
            rw [outcome_tryCatch, outcome_attempt, hattempt] at h
            refine ⟨_, ⟨?_, fun _ => rfl, ?_, ?_, ?_⟩, (Prod.mk.inj h).2.symm⟩
            · simp [Request.code, hreply, hresp]
            · simp [Vars.working, hdecoded]
            · simp [Vars.working, hsetup]
            · simp [Request.Retried, hreply]

end Attempt

section Perform

/-- What putting the job back does when it returns. -/
theorem requeued {r : Request} {s s' : Session} (h : outcome (requeue r) s = (.ok (), s')) :
    s' = if s.vars.ranjob = false ∧ s.vars.job = true then
        { s with delayed := s.delayed + 1, vars := { s.vars with resp := .continue } }
      else s := by
  unfold requeue at h
  rw [outcome_bind] at h
  simp only [outcome_get, Bool.and_eq_true, Bool.not_eq_true'] at h
  split at h
  · rename_i hq
    obtain ⟨⟨⟩, s₁, hdelay, h⟩ := exists_of_bind h
    rw [outcome_lift] at hdelay
    obtain rfl := (Prod.mk.inj hdelay).2
    rw [if_pos hq]
    exact (Prod.mk.inj h).2.symm
  · rename_i hq
    rw [if_neg hq]
    exact (Prod.mk.inj h).2.symm

/-- What the retry of the job does when it returns. -/
theorem retried {r : Request} {s s' : Session} (h : outcome (retry r) s = (.ok (), s')) :
    s' = if s.vars.resp = .retry ∧ s.vars.job = true then { s with delayed := s.delayed + 1 }
      else s := by
  unfold retry at h
  rw [outcome_bind] at h
  simp only [outcome_get, Bool.and_eq_true, decide_eq_true_eq] at h
  split at h
  · rename_i hq
    obtain ⟨⟨⟩, s₁, hretry, h⟩ := exists_of_bind h
    rw [outcome_lift] at hretry
    obtain rfl := (Prod.mk.inj hretry).2
    rw [if_pos hq]
    exact (Prod.mk.inj h).2.symm
  · rename_i hq
    rw [if_neg hq]
    exact (Prod.mk.inj h).2.symm

/-- The completion of the status changes nothing but the number of stops. -/
theorem settled {r : Request} {s s₁ s' : Session}
    (hjob : s.vars.responseStatus = true → s.vars.job = true)
    (hsettle : outcome (onVars (settle r.outcomes)) s = (.ok (), s₁))
    (hstop : outcome (onVars (stop r.outcomes)) s₁ = (.ok (), s')) :
    ∃ k, s' = { s with vars := { s.vars with stopped := k } } := by
  rw [outcome_onVars, outcome_settle r.outcomes hjob] at hsettle
  have hs₁ : s₁ = s := (Prod.mk.inj hsettle).2.symm
  subst hs₁
  rw [outcome_onVars, outcome_stop] at hstop
  by_cases hstatus : s₁.vars.status = true
  · rw [if_pos hstatus] at hstop
    exact ⟨s₁.vars.stopped + 1, (Prod.mk.inj hstop).2.symm⟩
  · rw [if_neg hstatus] at hstop
    exact ⟨s₁.vars.stopped, (Prod.mk.inj hstop).2.symm⟩

/-- How `run_job` has left the worker when it gets to the reply code. -/
structure Performed (r : Request) (n : ℕ) (queue : List QueueEntry) (s : Session) : Prop where
  code : s.vars.content.code = r.code
  job : s.vars.job = true ↔ ∃ async, r.outcomes.decoded = .ok async
  afterwards : s.afterwards = if r.called = .ok () then queue ++ r.entries n else queue
  dispatched : s.dispatched = []
  delayed : s.delayed = 1 ∧ (r.Unstarted ∨ r.Retried) ∨
    s.delayed = 0 ∧ ¬ (r.Unstarted ∨ r.Retried)

theorem unstarted_iff {r : Request} {v : Vars} (h : Tried r v) :
    r.Unstarted ↔ v.ranjob = false ∧ v.job = true := by
  have hsetup : (∃ e, r.setup = .error e) ↔ ¬ v.ranjob = true := by
    rw [h.ranjob]
    cases r.setup with
    | error e => simp
    | ok u => simp
  unfold Request.Unstarted
  rw [hsetup, ← h.job, Bool.not_eq_true, and_comm]

/-- A handler that was called has a job, and is past `ranjob`. -/
theorem of_retried {r : Request} {v : Vars} (h : Tried r v) (hretried : r.Retried) :
    v.ranjob = true ∧ v.job = true := by
  obtain ⟨code, hhandled⟩ := hretried
  obtain ⟨⟨⟩, hcalled, -⟩ := bind_eq_ok.1 hhandled
  obtain ⟨⟨⟩, hsetup, -⟩ := bind_eq_ok.1 hcalled
  obtain ⟨async, hdecoded, -⟩ := bind_eq_ok.1 hsetup
  exact ⟨h.ranjob.2 hsetup, h.job.2 ⟨async, hdecoded⟩⟩

theorem performed {r : Request} {n : ℕ} {queue : List QueueEntry} {s : Session}
    (h : outcome (perform n r) { afterwards := queue } = (.ok (), s)) :
    Performed r n queue s := by
  unfold perform at h
  obtain ⟨⟨⟩, s₁, htried, h⟩ := exists_of_bind h
  obtain ⟨v, hv, rfl⟩ := tried htried
  obtain ⟨⟨⟩, s₂, hrequeue, h⟩ := exists_of_bind h
  have hs₂ := requeued hrequeue
  obtain ⟨⟨⟩, s₃, hsettle, h⟩ := exists_of_bind h
  obtain ⟨⟨⟩, s₄, hstop, hretry⟩ := exists_of_bind h
  have hs := retried hretry
  by_cases hq : v.ranjob = false ∧ v.job = true
  · rw [if_pos hq] at hs₂
    subst hs₂
    obtain ⟨k, rfl⟩ := settled hv.responded hsettle hstop
    rw [if_neg fun h => nomatch h.1] at hs
    subst hs
    exact ⟨hv.code, hv.job, rfl, rfl, .inl ⟨rfl, .inl ((unstarted_iff hv).2 hq)⟩⟩
  · rw [if_neg hq] at hs₂
    subst hs₂
    obtain ⟨k, rfl⟩ := settled hv.responded hsettle hstop
    have hstarted : ¬ r.Unstarted := fun h => hq ((unstarted_iff hv).1 h)
    by_cases hresp : v.resp = .retry
    · have hretried := hv.resp.1 hresp
      rw [if_pos ⟨hresp, (of_retried hv hretried).2⟩] at hs
      subst hs
      exact ⟨hv.code, hv.job, rfl, rfl, .inl ⟨rfl, .inr hretried⟩⟩
    · rw [if_neg fun h => hresp h.1] at hs
      subst hs
      refine ⟨hv.code, hv.job, rfl, rfl, .inr ⟨rfl, fun h => ?_⟩⟩
      exact h.elim hstarted fun hretried => hresp (hv.resp.2 hretried)

end Perform

section Drain

/-- The loop takes entries from the front of the queue, and it takes all of them unless
dispatching one before the last fails. -/
theorem exists_drain (dispatch : ℕ → Except Exn Unit) (i : ℕ) (queue : List QueueEntry)
    (s : Session) (hqueue : s.afterwards = queue) :
    ∃ result k, outcome (drain dispatch i queue) s =
        (result, { s with afterwards := queue.drop k,
                          dispatched := s.dispatched ++ queue.take k }) ∧
      ((∀ j, j + 1 < queue.length → dispatch (i + j) = .ok ()) → queue.drop k = []) := by
  induction queue generalizing i s with
  | nil =>
      obtain ⟨vars, afterwards, dispatched, delayed⟩ := s
      subst hqueue
      exact ⟨.ok (), 0, by simp [drain], fun _ => rfl⟩
  | cons next rest ih =>
      unfold drain
      simp only [outcome_bind, outcome_modify, outcome_lift]
      cases hdispatch : dispatch i with
      | error e =>
          refine ⟨.error e, 1, by simp, fun hall => ?_⟩
          -- only the last entry may fail
          cases rest with
          | nil => rfl
          | cons next' rest =>
              have hfirst := hall 0 (by simp)
              rw [Nat.add_zero, hdispatch] at hfirst
              cases hfirst
      | ok u =>
          obtain ⟨result, k, hrest, hempty⟩ := ih (i + 1)
            { s with afterwards := rest, dispatched := s.dispatched ++ [next] } rfl
          refine ⟨result, k + 1, ?_, fun hall => ?_⟩
          · simp [hrest]
          · refine hempty fun j hj => ?_
            rw [Nat.add_assoc, Nat.add_comm 1 j]
            exact hall (j + 1) (by simpa using hj)

theorem outcome_clearAfterwards (s : Session) :
    outcome clearAfterwards s = (.ok (),
      if 300 ≤ s.vars.content.code then { s with afterwards := [] } else s) := by
  unfold clearAfterwards
  rw [outcome_bind]
  simp only [outcome_get, ge_iff_le]
  split <;> rfl

/-- `post_request` and the handler around it leave the variables alone, and they take entries
from the front of the queue. -/
theorem posted {r : Request} {s s' : Session}
    (h : outcome (tryCatch (if s.vars.job then postRequest r else pure ())
      fun e => onVars (logged e)) s = (.ok (), s')) :
    ∃ k, s' = { s with afterwards := s.afterwards.drop k,
                       dispatched := s.dispatched ++ s.afterwards.take k } ∧
      (s.vars.job = true →
        (∀ j, j + 1 < s.afterwards.length → r.dispatch j = .ok ()) → s'.afterwards = []) := by
  rw [outcome_tryCatch] at h
  by_cases hjob : s.vars.job = true
  · obtain ⟨result, k, hdrain, hempty⟩ := exists_drain r.dispatch 0 s.afterwards s rfl
    have hpost : outcome (postRequest r) s = outcome (drain r.dispatch 0 s.afterwards) s := rfl
    simp only [if_pos hjob, hpost, hdrain] at h
    have hs' : s' = { s with afterwards := s.afterwards.drop k,
                             dispatched := s.dispatched ++ s.afterwards.take k } := by
      cases result with
      | ok u => exact (Prod.mk.inj h).2.symm
      | error e =>
          simp only [outcome_onVars, outcome_logged] at h
          exact (Prod.mk.inj h).2.symm
    refine ⟨k, hs', fun _ hall => ?_⟩
    rw [hs']
    exact hempty fun j hj => by simpa using hall j hj
  · rw [if_neg hjob] at h
    refine ⟨0, ?_, fun hj => absurd hj hjob⟩
    simpa using (Prod.mk.inj h).2.symm

/-- What `run_job` has done when it returns. -/
structure Returned (r : Request) (queue : List QueueEntry) (c : Content) (s : Session) :
    Prop where
  code : c.code = r.code
  delayed : s.delayed = 1 ∧ (r.Unstarted ∨ r.Retried) ∨
    s.delayed = 0 ∧ ¬ (r.Unstarted ∨ r.Retried)
  failed : 300 ≤ c.code → s.afterwards = [] ∧ s.dispatched = []
  left : r.Dispatches → queue = [] → s.afterwards = []

theorem returned {r : Request} {n : ℕ} {queue : List QueueEntry} {c : Content} {s : Session}
    (h : outcome (runJob n r) { afterwards := queue } = (.ok c, s)) : Returned r queue c s := by
  unfold runJob at h
  obtain ⟨⟨⟩, s₁, hperform, h⟩ := exists_of_bind h
  obtain ⟨hcode, hjob, hafterwards, hdispatched, hdelayed⟩ := performed hperform
  obtain ⟨⟨⟩, s₂, hclear, h⟩ := exists_of_bind h
  obtain ⟨s₃, s₄, hget, h⟩ := exists_of_bind h
  obtain ⟨⟨⟩, s₅, hpost, hend⟩ := exists_of_bind h
  rw [outcome_get, Prod.mk.injEq, Except.ok.injEq] at hget
  obtain ⟨rfl, rfl⟩ := hget
  obtain ⟨k, hs₅, hempty⟩ := posted hpost
  simp only [outcome_bind, outcome_get, outcome_pure, Prod.mk.injEq, Except.ok.injEq] at hend
  obtain ⟨hc, rfl⟩ := hend
  rw [outcome_clearAfterwards] at hclear
  have hs₂ := (Prod.mk.inj hclear).2
  by_cases hfailed : 300 ≤ s₁.vars.content.code
  · rw [if_pos hfailed] at hs₂
    subst hs₂
    subst hs₅
    subst hc
    exact ⟨hcode, hdelayed, fun _ => ⟨by simp, by simpa using hdispatched⟩,
      fun _ _ => by simp⟩
  · rw [if_neg hfailed] at hs₂
    subst hs₂
    subst hc
    refine ⟨?_, ?_, ?_, ?_⟩
    · rw [hs₅]
      exact hcode
    · rw [hs₅]
      exact hdelayed
    · rw [hs₅]
      exact fun h => absurd h hfailed
    · intro hall hqueue
      subst hqueue
      by_cases hcalled : r.called = .ok ()
      · rw [if_pos hcalled, List.nil_append] at hafterwards
        obtain ⟨⟨⟩, hsetup, -⟩ := bind_eq_ok.1 hcalled
        obtain ⟨async, hdecoded, -⟩ := bind_eq_ok.1 hsetup
        refine hempty (hjob.2 ⟨async, hdecoded⟩) fun j hj => ?_
        rw [hafterwards] at hj
        exact hall hcalled (by omega) j (by simpa [Request.entries] using hj)
      · rw [if_neg hcalled] at hafterwards
        rw [hs₅, hafterwards]
        simp

end Drain

section Owned

/-- The entries in the queue and those that were dispatched belong to the request. -/
def Owned (n : ℕ) (s : Session) : Prop :=
  ∀ e ∈ s.afterwards ++ s.dispatched, e.request = n

theorem keeps_onVars {n : ℕ} (m : Code Vars Exn α) : Keeps (Owned n) (onVars m) :=
  fun _ hs => hs

theorem keeps_delayed {n : ℕ} :
    Keeps (Owned n)
      (modify fun s => { s with delayed := s.delayed + 1 } : Code Session Exn Unit) :=
  fun _ hs => hs

theorem keeps_attempt (n : ℕ) (r : Request) : Keeps (Owned n) (attempt n r) := by
  intro s hs e he
  rw [outcome_attempt] at he
  simp only at he
  split at he
  · simp only [List.mem_append, Request.entries, List.mem_map] at he
    obtain (he | ⟨p, -, rfl⟩) | he := he
    · exact hs e (List.mem_append_left _ he)
    · rfl
    · exact hs e (List.mem_append_right _ he)
  · exact hs e he

theorem keeps_perform (n : ℕ) (r : Request) : Keeps (Owned n) (perform n r) := by
  have hrequeue : Keeps (Owned n) (requeue r) := by
    intro s hs
    unfold requeue
    rw [outcome_bind, outcome_get]
    simp only
    split
    · exact (keeps_lift _).bind (fun _ => keeps_delayed.bind fun _ => keeps_onVars _) s hs
    · exact hs
  have hretry : Keeps (Owned n) (retry r) := by
    intro s hs
    unfold retry
    rw [outcome_bind, outcome_get]
    simp only
    split
    · exact (keeps_lift _).bind (fun _ => keeps_delayed) s hs
    · exact hs
  unfold perform
  refine (Keeps.tryCatch (keeps_attempt n r) fun e => keeps_onVars _).bind fun _ => ?_
  refine hrequeue.bind fun _ => ?_
  refine (keeps_onVars _).bind fun _ => ?_
  exact (keeps_onVars _).bind fun _ => hretry

theorem keeps_postRequest (n : ℕ) (r : Request) : Keeps (Owned n) (postRequest r) := by
  intro s hs
  have hdrain : outcome (postRequest r) s = outcome (drain r.dispatch 0 s.afterwards) s := rfl
  obtain ⟨result, k, hqueue, -⟩ := exists_drain r.dispatch 0 s.afterwards s rfl
  rw [hdrain, hqueue]
  intro e he
  simp only [List.mem_append] at he
  obtain he | he | he := he
  · exact hs e (List.mem_append_left _ (List.mem_of_mem_drop he))
  · exact hs e (List.mem_append_right _ he)
  · exact hs e (List.mem_append_left _ (List.mem_of_mem_take he))

/-- A request that starts with an empty queue handles follow-up jobs of its own only. -/
theorem keeps_runJob (n : ℕ) (r : Request) : Keeps (Owned n) (runJob n r) := by
  have hclear : Keeps (Owned n) clearAfterwards := by
    intro s hs
    rw [outcome_clearAfterwards]
    simp only
    split
    · exact fun e he => hs e (List.mem_append_right _ he)
    · exact hs
  unfold runJob
  refine (keeps_perform n r).bind fun _ => hclear.bind fun _ => ?_
  intro s hs
  rw [outcome_bind, outcome_get]
  simp only
  have hpost : Keeps (Owned n) (if s.vars.job then postRequest r else pure ()) := by
    split
    · exact keeps_postRequest n r
    · exact keeps_pure ()
  refine (Keeps.tryCatch hpost fun e => keeps_onVars _).bind (fun _ => ?_) s hs
  exact fun s hs => hs

end Owned

/-- A request that starts with an empty queue leaves an empty queue. -/
theorem own_of_runJob {n : ℕ} {r : Request} {reply : Except Exn Content} {s : Session}
    (h : outcome (runJob n r) {} = (reply, s)) (hr : r.Dispatches) :
    Record.Own ⟨n, reply, s.dispatched, s.afterwards⟩ ∧
      ∀ c, reply = .ok c → s.afterwards = [] := by
  have howned := keeps_runJob n r {} nofun
  rw [h] at howned
  refine ⟨⟨fun e he => howned e (List.mem_append_right _ he), ?_⟩, ?_⟩
  · rintro c rfl
    have hreturned := returned h
    refine ⟨fun e he => ?_, fun hcode e he => ?_⟩
    · rw [hreturned.left hr rfl] at he
      cases he
    · rw [(hreturned.failed hcode).2] at he
      cases he
  · rintro c rfl
    exact (returned h).left hr rfl

/-- A worker that starts with an empty queue: the follow-up jobs belong to their own
request. -/
def OwnRun (n : ℕ) (rs : List Request) : Prop :=
  ∀ record ∈ run n [] rs, record.Own

/-- In every sequence of requests, if each of them fails or can dispatch its follow-up jobs
but the last one, then the follow-up jobs belong to their own request. -/
theorem own_of_run (rs : List Request) (h : ∀ r ∈ rs, r.Dispatches) (n : ℕ) : OwnRun n rs := by
  unfold OwnRun
  induction rs generalizing n with
  | nil => nofun
  | cons r rs ih =>
      unfold run
      split
      · rename_i c s hrun
        obtain ⟨hown, hempty⟩ := own_of_runJob hrun (h r List.mem_cons_self)
        rw [hempty c rfl] at hown ⊢
        intro record hrecord
        obtain rfl | hrecord := List.mem_cons.1 hrecord
        · exact hown
        · exact ih (fun r hr => h r (List.mem_cons_of_mem _ hr)) (n + 1) record hrecord
      · rename_i e s hrun
        obtain ⟨hown, -⟩ := own_of_runJob hrun (h r List.mem_cons_self)
        intro record hrecord
        rw [List.mem_singleton.1 hrecord]
        exact hown

/-- A request of the handler that returns a response and a code, for a job of type
`JOB_SYNC`. -/
def plainRequest (resp : Response) (code : ℤ) : Outcomes where
  name := "do_get_stuff_v1"
  statusName := "st-1"
  decompress := .ok ()
  parse := .ok ()
  baseUri := .ok ()
  decode := .ok false
  hasStatus := .ok false
  fetch := .ok ()
  create := .ok ()
  respond := .ok ()
  starting := .ok ()
  logEnter := .ok ()
  pushArgument := .ok ()
  parentUri := .ok ()
  state := .ok .pending
  setRunning := .ok true
  sync := .ok .running
  event _ := .ok ()
  childUri := .ok ()
  preRequest := .ok ()
  checkpoint := .ok ()
  handler := .ok (resp, code)
  delay := .ok ()
  rollback := .ok ()
  progress := .ok 0
  addMessage := .ok ()
  fail := .ok ()
  success := .ok ()
  finalState := .ok .completed
  isSuccess := .ok true
  stopping := .ok ()
  retry := .ok ()
  postRequest := .ok ()

/-- A request that queues two jobs, of which the second cannot be dispatched. -/
def lastFails : Request where
  outcomes := plainRequest .success 200
  queued := [("do_append_v1", 0), ("do_cleanup_v1", 10)]
  dispatch i := if i = 0 then .ok () else .error (.std "no gearman server")

theorem own_lastFails : OwnRun 0 [lastFails] :=
  own_of_run [lastFails] (fun r hr _ _ i hi => by
    obtain rfl := List.mem_singleton.1 hr
    obtain rfl : i = 0 := by
      simp only [lastFails, List.length_cons, List.length_nil] at hi
      omega
    rfl) 0

/-- A request that queues two jobs, of which the first cannot be dispatched. -/
def firstFails : Request where
  outcomes := plainRequest .success 200
  queued := [("do_append_v1", 0), ("do_cleanup_v1", 0)]
  dispatch _ := .error (.std "no gearman server")

/-- The second job stays in the queue and is run in the request that follows. -/
theorem not_own : ¬ ∀ rs, OwnRun 0 rs := by
  intro h
  let next : Request := ⟨plainRequest .success 200, [], fun _ => .ok ()⟩
  have hrun : run 0 [] [firstFails, next] =
      [⟨0, .ok ⟨"OK", "OK", 200⟩, [⟨0, "do_append_v1", 0⟩], [⟨0, "do_cleanup_v1", 0⟩]⟩,
       ⟨1, .ok ⟨"OK", "OK", 200⟩, [⟨0, "do_cleanup_v1", 0⟩], []⟩] := by decide +kernel
  have hown := h [firstFails, next] _ (hrun ▸ List.mem_cons_of_mem _ List.mem_cons_self)
  exact absurd (hown.1 ⟨0, "do_cleanup_v1", 0⟩ List.mem_cons_self) (by decide)

/-- The handler of a synchronous job throws. -/
def throwing : Request where
  outcomes := { plainRequest .success 0 with handler := .error (.error "gone" "GONE" 410) }
  queued := []
  dispatch _ := .ok ()

end Afterwards

end Gearbox
