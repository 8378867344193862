import Gearbox.Interleaving.Except
import Gearbox.Status.Sql
import Gearbox.Worker.Failures

/-!
# Cancelling a status

A `POST {state: CANCELLED}` on a status sets off a chain of worker jobs:
`do_post_global_status_v1`, after a registered pre-cancel job possibly
`do_stop_global_status_v1`, then `do_pollstate_global_status_v1` until the status has
stopped, and `do_cancelwatch_global_status_v1` until everything the cancellation waits
for has completed. Each handler calls the next one directly, or queues a job for it and
returns `WORKER_CONTINUE`. A chain is therefore a client of the row whose local state is
its pending job; its calls are the runs of that job by a worker.

What is not in the row is outside: the children and the jobs registered for the events
of the status, other statuses, the status of the request itself and the delay table.
Their answers are arbitrary, exceptions included. `Call.cancel` is no call of the source
but marks the place where `cancel()` is called on the status.
-/

namespace Gearbox

namespace Cancel

open Agents (Error EventStatus throwFromCode)
open Interleaving Status
open Propagation (Failed Succeeded checkEvent lifted raised)

/-- What the handlers ask of the world outside the row. -/
inductive Call where
  /-- `resp.status()->progress(p)` -/
  | respProgress (p : ℕ)
  /-- `s->children()` -/
  | children
  /-- `POST {state: CANCELLED}` to a child; the answer is the response with its status -/
  | postChild (uri : String)
  /-- `s->on(EVENT_PRECANCEL)` -/
  | onPrecancel
  /-- `s->on(EVENT_CANCEL)` -/
  | onCancel
  /-- `on_cancel->run()`; the answer is the URI of its status -/
  | runOnCancel
  /-- the pre-cancel job has completed with this status -/
  | precancelCompleted
  /-- `sm.fetch(uri)` -/
  | fetch (uri : String)
  /-- the update of the delay table and the poke of the delay daemon -/
  | delay (time : ℤ)
  /-- `cancel()` is called on the status -/
  | cancel
  deriving DecidableEq, Repr

abbrev Answer : Call → Type
  | .respProgress _ => Except Error Unit
  | .children => List String
  | .postChild _ => Except Error Propagation.Reply
  | .onPrecancel => Bool
  | .onCancel => Bool
  | .runOnCancel => Except Error String
  | .precancelCompleted => EventStatus
  | .fetch _ => Except Error EventStatus
  | .delay _ => Except Error Unit
  | .cancel => Unit

/-- A job of the chain that is queued. -/
inductive Job where
  | post (state : Option String) (ytime : Option ℤ)
  /-- the pre-cancel job, with `do_stop` as the handler of its completion -/
  | precancel
  | stop (event : Option EventStatus)
  | pollstate (state : String) (nextState : Option String)
  | cancelwatch (watch : List String) (state : String)
  /-- nothing is queued any more -/
  | ended
  deriving DecidableEq, Repr

/-- What a handler returns; `WORKER_CONTINUE` comes with the job queued by
`afterwards`. -/
inductive Response where
  | success
  | continue (next : Job)
  | retry
  deriving DecidableEq, Repr

/-- A handler, with what it may end with if it does not return. -/
abbrev Handler (α : Type) := ExceptT Propagation.Thrown (Prog Row Answer) α

/-- One call to the world outside the row. -/
def ask (x : Call) : Prog Row Answer (Answer x) := Prog.perform x

/-- A program that does not throw. -/
def plain {α : Type} (p : Prog Row Answer α) : Handler α := liftM p

/-- A call whose answer is an exception throws it. -/
def attempt {α : Type} (p : Prog Row Answer (Except Error α)) : Handler α :=
  ExceptT.mk do
    let r ← p
    return lifted r

/-- The rule for a call that may throw. -/
theorem wpE_attempt {G α : Type} {m : Monitor Row Answer G} {x : Call}
    {y : Answer x → Except Error α} {Q : G → α → Prop} {E : G → Propagation.Thrown → Prop}
    {g : G} (h : ∀ a, m.guar g (.call x a) ∧
      match y a with
      | .ok b => Q (m.next g (.call x a)) b
      | .error e => E (m.next g (.call x a)) (.error e)) :
    Prog.wpE m (attempt (.call x fun a => .ret (y a))) Q E g := by
  intro a
  obtain ⟨hguar, hnext⟩ := h a
  refine ⟨hguar, ?_⟩
  show Prog.wp m (.ret (lifted (y a))) _ _
  rw [Prog.wp_ret]
  cases hy : y a with
  | ok b =>
      rw [hy] at hnext
      exact hnext
  | error e =>
      rw [hy] at hnext
      exact hnext

/-- `status_manager().fetch(name)`: a handle that will load the row when it is
asked. -/
def fetched : Handle := { shouldLoad := true }

/-- An operation on the handle that throws. -/
def attemptStatus (p : Prog Row Answer (Except Thrown Unit × Handle)) :
    Handler Handle := ExceptT.mk do
  let (r, h) ← p
  match r with
  | .ok () => return .ok h
  | .error (.internalServerError what) => return .error (.error ⟨500, what⟩)
  | .error .workerStop => return .error (.error ⟨errGone, "worker stop"⟩)

/-- The rule for an operation that throws, for handlers that treat all its exceptions
alike. -/
theorem wpE_attemptStatus {G : Type} {m : Monitor Row Answer G}
    {p : Prog Row Answer (Except Thrown Unit × Handle)} {Q : G → Handle → Prop}
    {E : G → Propagation.Thrown → Prop} {g : G}
    (h : p.wp m (fun g r => (r.1 = .ok () → Q g r.2) ∧
      (r.1 ≠ .ok () → ∀ t, E g t)) g) :
    Prog.wpE m (attemptStatus p) Q E g := by
  refine Prog.wp_bind _ (Prog.wp_mono _ ?_ h)
  intro g r hr
  obtain ⟨r, h⟩ := r
  cases r with
  | ok u => exact hr.1 rfl
  | error e =>
      have hthrow := hr.2 (by intro h; cases h)
      cases e with
      | internalServerError what => exact hthrow _
      | workerStop => exact hthrow _

/-- The loop over `watch`: what is left of it when it stops at a status that has not
completed. A status that has failed fails this one too. -/
def watchLoop (watch : List String) : Handler (List String) :=
  Propagation.watchLoop (fun uri => attempt (ask (.fetch uri)))
    (fun code => do let _ ← attemptStatus (fetched.fail code)) watch

/-- The loop over the children. -/
def cancelChildren (children : List String) : Handler (List String) :=
  Propagation.cancelChildren (fun child => attempt (ask (.postChild child))) children

section Loops

variable {G : Type} {m : Monitor Row Answer G} {E : G → Propagation.Thrown → Prop} {g : G}

/-- The rule for the loop over the watch list: `I` holds of the rest of it. -/
theorem wpE_watchLoop {I : List String → G → Prop}
    (hguar : ∀ uri rest g y, I (uri :: rest) g → m.guar g (.call (.fetch uri) y))
    (herror : ∀ uri rest g e, I (uri :: rest) g →
      E (m.next g (.call (.fetch uri) (.error e))) (.error e))
    (hwait : ∀ uri rest g s, I (uri :: rest) g → s.progress ≠ 100 →
      I (uri :: rest) (m.next g (.call (.fetch uri) (.ok s))))
    (hfail : ∀ uri rest g s, I (uri :: rest) g → Failed s →
      Prog.wpE m (attemptStatus (fetched.fail s.code))
        (fun g' _ => E g' (raised s.code s.messages)) E
        (m.next g (.call (.fetch uri) (.ok s))))
    (hnext : ∀ uri rest g s, I (uri :: rest) g → Succeeded s →
      I rest (m.next g (.call (.fetch uri) (.ok s))))
    {watch : List String} (h : I watch g) :
    Prog.wpE m (watchLoop watch) (fun g' rest => I rest g') E g := by
  induction watch generalizing g with
  | nil => exact Prog.wpE_pure h
  | cons uri rest ih =>
      refine Prog.wpE_bind (wpE_attempt fun y => ⟨hguar uri rest g y h, ?_⟩)
      cases y with
      | error e => exact herror uri rest g e h
      | ok s =>
          dsimp only
          by_cases hp : s.progress = 100
          · rw [if_neg (not_not_intro hp)]
            by_cases hc : s.code = 0
            · rw [if_neg (not_not_intro hc)]
              exact ih (hnext uri rest g s h ⟨hp, hc⟩)
            · rw [if_pos hc, Propagation.raise_back]
              refine Prog.wpE_bind (Prog.wpE_bind ?_)
              exact Prog.wpE_mono (fun _ _ hE => Prog.wpE_pure (Prog.wpE_throw hE))
                (fun _ _ h => h) (hfail uri rest g s h ⟨hp, hc⟩)
          · rw [if_pos hp]
            exact Prog.wpE_pure (hwait uri rest g s h hp)

section Children

-- `I` holds of the URIs that are on the list so far
variable {I : List String → G → Prop}
  (hguar : ∀ watch child g y, I watch g → m.guar g (.call (.postChild child) y))
  (herror : ∀ watch child g e, I watch g →
    E (m.next g (.call (.postChild child) (.error e))) (.error e))
  (hfail : ∀ watch child g r, I watch g → Failed r.status →
    E (m.next g (.call (.postChild child) (.ok r))) (raised r.code r.status.messages))
  (hnext : ∀ watch child g r, I watch g → ¬ Failed r.status →
    I (watch ++ [r.uri]) (m.next g (.call (.postChild child) (.ok r))))

include hguar herror hfail hnext

theorem wpE_cancelChildren_append {watch children : List String} (h : I watch g) :
    Prog.wpE m (cancelChildren children) (fun g' uris => I (watch ++ uris) g') E g := by
  induction children generalizing watch g with
  | nil =>
      refine Prog.wpE_pure ?_
      rw [List.append_nil]
      exact h
  | cons child rest ih =>
      refine Prog.wpE_bind (wpE_attempt fun y => ⟨hguar watch child g y h, ?_⟩)
      cases y with
      | error e => exact herror watch child g e h
      | ok r =>
          dsimp only
          by_cases hr : Failed r.status
          · rw [if_pos (c := r.status.progress = 100 ∧ r.status.code ≠ 0) hr,
              Propagation.raise_back]
            exact Prog.wpE_throw (hfail watch child g r h hr)
          · rw [if_neg (c := r.status.progress = 100 ∧ r.status.code ≠ 0) hr]
            refine Prog.wpE_bind (Prog.wpE_mono ?_ (fun _ _ h => h)
              (ih (hnext watch child g r h hr)))
            intro g' uris hI
            rw [List.append_assoc] at hI
            exact Prog.wpE_pure hI

/-- The rule for the loop over the children. -/
theorem wpE_cancelChildren {children : List String} (h : I [] g) :
    Prog.wpE m (cancelChildren children) (fun g' watch => I watch g') E g :=
  wpE_cancelChildren_append hguar herror hfail hnext h

end Children

end Loops

/-- `s->cancel()` -/
def cancelStatus (s : Handle) : Handler Unit := do
  plain (ask .cancel)
  let _ ← attemptStatus s.cancel

/-- `do_cancelwatch_global_status_v1` -/
def doCancelwatch (watch : List String) (state : String) : Handler Response := do
  let rest ← watchLoop watch
  if rest ≠ [] then
    return .continue (.cancelwatch rest state)
  else if state = "CANCELLING" then
    let registered ← plain (ask .onCancel)
    if registered then
      attempt (ask (.respProgress 70))
      let uri ← attempt (ask .runOnCancel)
      return .continue (.cancelwatch [uri] "CANCELLED")
    else
      cancelStatus fetched
      return .success
  else if state = "CANCELLED" then
    cancelStatus fetched
    return .success
  else
    return .success

/-- The body of the `try` block of `do_pollstate_global_status_v1`. -/
def launch : Handler Response := do
  let children ← plain (ask .children)
  let watch ← cancelChildren children
  doCancelwatch watch "CANCELLING"

/-- The handler of that `try` block; it catches exceptions. -/
def recover (s : Handle) : Propagation.Thrown → Handler Response
  | .error err => do
      let _ ← plain (s.setState .completed)
      throw (.error err)
  | .undefined => throw .undefined

/-- `do_pollstate_global_status_v1` -/
def doPollstate (state : String) (nextState : Option String) : Handler Response := do
  let (current, s) ← plain fetched.getState
  if current = .cancelled then
    return .success
  else if state = "STOPPED" ∧ (current = .stopped ∨ current = .completed) then
    match nextState with
    | none => return .success
    | some next =>
        attempt (ask (.respProgress 40))
        if next = "CANCELLED" then
          let (changed, s) ← plain (s.setState .cancelling)
          if !changed then
            return .retry
          else
            tryCatch launch (recover s)
        else
          throw (.error ⟨500, "Unexpected state transition requested: " ++ next⟩)
  else
    return .continue (.pollstate state nextState)

/-- The part of `do_stop_global_status_v1` for a status that is still pending or
running; `false` asks for a retry. -/
def stopRunning (s : Handle) : Handler Bool := do
  let (changed, s) ← plain (s.setState .stopping)
  if !changed then
    return false
  else if s.ytime ≥ 0 then
    attempt (ask (.delay 0))
    let _ ← plain (s.setYtime 0)
    return true
  else
    let r ← plain Prog.select
    if r.concurrency = 0 then
      -- `checkpoint` marks the status as stopped and throws, which is expected
      let _ ← plain s.checkpoint
      return true
    else
      return true

/-- `do_stop_global_status_v1` -/
def doStop (event : Option EventStatus) : Handler Response := do
  checkEvent event
  attempt (ask (.respProgress 10))
  let (old, s) ← plain fetched.getState
  let stopped ← (if old = .pending ∨ old = .running then stopRunning s else pure true)
  if !stopped then
    return .retry
  else
    doPollstate "STOPPED" (some "CANCELLED")

/-- The check leaves the ghost state alone. -/
theorem wpE_checkEvent {G : Type} {m : Monitor Row Answer G}
    {E : G → Propagation.Thrown → Prop} {g : G} (event : Option EventStatus)
    (hE : ∀ t, E g t) :
    Prog.wpE m (checkEvent event) (fun g' _ => g' = g) E g := by
  unfold checkEvent
  split
  · exact Prog.wpE_pure rfl
  · split
    · exact Prog.wpE_throw (hE _)
    · rw [Propagation.raise_back]
      exact Prog.wpE_throw (hE _)
    · exact Prog.wpE_pure rfl

/-- `do_post_global_status_v1` -/
def doPost (state : Option String) (ytime : Option ℤ) : Handler Response := do
  match state with
  | some state =>
      attempt (ask (.respProgress 1))
      if state = "CANCELLED" then
        let (old, _) ← plain fetched.getState
        if old = .cancelled then
          return .success
        else if old = .stopping ∨ old = .cancelling then
          throw (.error ⟨errConflict, "state is currently " ++ state2str old⟩)
        else
          let registered ← plain (ask .onPrecancel)
          if registered then
            return .continue .precancel
          else
            doStop none
      else
        throw (.error ⟨400, "transition to state '" ++ state ++ "' unsupported"⟩)
  | none =>
      match ytime with
      | some time =>
          attempt (ask (.delay time))
          let _ ← plain (fetched.setYtime time)
          return .success
      | none => return .success

/-- The handler of a job. The pre-cancel job is outside; it ends with the job for
`do_stop`. -/
def handler : Job → Handler Response
  | .post state ytime => doPost state ytime
  | .precancel => do
      let evt ← plain (ask .precancelCompleted)
      return .continue (.stop (some evt))
  | .stop event => doStop event
  | .pollstate state nextState => doPollstate state nextState
  | .cancelwatch watch state => doCancelwatch watch state
  | .ended => pure .success

/-- How a worker's run of a job ended. -/
inductive Outcome where
  | success
  | continued
  | retried
  | threw (t : Propagation.Thrown)
  deriving DecidableEq, Repr

/-- What `run_job` makes of the result of a handler: the outcome and the job that is
queued afterwards. A job that is retried is queued again as it was, and nothing is
queued after an exception. A run that does something undefined is not followed beyond. -/
def conclude (job : Job) : Except Propagation.Thrown Response → Outcome × Job
  | .ok .success => (.success, .ended)
  | .ok (.continue next) => (.continued, next)
  | .ok .retry => (.retried, job)
  | .error t => (.threw t, .ended)

/-- One run of the pending job by a worker. -/
def work (_ : Unit) (job : Job) : Prog Row Answer (Outcome × Job) := do
  let r ← (handler job).run
  return conclude job r

/-- One status row and any number of chains that cancel it. -/
abbrev Chains (ι : Type) := Config ι Row Answer Job Unit Outcome

abbrev Chains.Label (ι : Type) := Interleaving.Label ι Row Answer Job Unit Outcome

/-- The events of the chains, in the order in which they happened. -/
abbrev Trace (ι : Type) := List (ι × Event Row Answer)

end Cancel

end Gearbox
