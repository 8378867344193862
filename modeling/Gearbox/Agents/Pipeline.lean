import Gearbox.Agents.Queue
import Gearbox.Interleaving.Pool
import Gearbox.Status.State

/-!
# The jobs of an agent pipeline

`do_run_global_agents_v1` compiles the queue of agents into one job that contains the
whole pipeline. The job of a level is `do_runlevel_global_agents_v1` with the envelopes
of the agents of the level; the envelope of an agent carries a job for the event
COMPLETED. In a level of one agent that is the job of the next level. Otherwise it is
`do_decrement_global_counter_v1` with a counter file that starts at the number of agents,
and this job in turn carries the job of the next level. An event handler receives the
status of the job that fired it, which is how the failure of an agent travels.

`Exec` executes one of the jobs that are on their way. A run of the pipeline is a run of
the pool of these jobs (`Interleaving.Pool`), so completions, decrements and level jobs
happen in any order. The decrement is cut where other processes can come in between: the
check that the file exists, the update under the lock, and the removal of the file.

The handlers for other events, and those of the request that started the pipeline, do
not touch the agents and are left out.
-/

namespace Gearbox

namespace Agents

open Interleaving Status

/-- The status of a job, as an event handler receives it. -/
structure EventStatus where
  state : State
  progress : ℕ
  code : ℤ
  messages : List String
  deriving DecidableEq, Repr

/-- `Status::is_success`. -/
def EventStatus.isSuccess (s : EventStatus) : Except Error Bool :=
  if s.progress ≠ 100 then
    .error ⟨500, "is_success is invalid on in-complete status"⟩
  else
    .ok (s.code = 0)

/-- The codes that have an exception of their own. -/
def errorCodes : List ℤ :=
  [300, 301, 302, 303, 304, 305, 307,
    400, 401, 402, 403, 404, 405, 406, 407, 408, 409, 410, 411, 412, 413, 414, 415, 416,
    417, 422, 423, 424, 426,
    500, 501, 502, 503, 504, 505, 506, 507, 510]

/-- The exception of `throw_from_code`. -/
def throwFromCode (code : ℤ) (message : String) : Error :=
  if code ∈ errorCodes then ⟨code, message⟩ else ⟨500, message⟩

/-- A serialised job. -/
inductive Envelope where
  /-- `do_runlevel_global_agents_v1` with its content; on STARTED it sets the progress of
  the request -/
  | runlevel (progress : Option ℕ) (content : String) (jobs : List Envelope)
  /-- the job of an agent, with its handler for COMPLETED -/
  | agent (agent : Agent) (content : String) (completed : Envelope)
  /-- `do_decrement_global_counter_v1` with its argument and its handler for COMPLETED -/
  | decrement (counter : ℕ) (completed : Envelope)

/-- The name of the job of an agent. -/
def Envelope.agentName : Envelope → String
  | .agent a _ _ => a.name
  | .runlevel _ _ _ => "do_runlevel_global_agents_v1"
  | .decrement _ _ => "do_decrement_global_counter_v1"

/-- `Job::content` -/
def Envelope.setContent (content : String) : Envelope → Envelope
  | .agent a _ completed => .agent a content completed
  | .runlevel progress _ jobs => .runlevel progress content jobs
  | .decrement counter completed => .decrement counter completed

/-- The files under `COUNTER_PATH`; `next` is the first identifier that `gen_id` has not
given out. -/
structure Counters where
  file : ℕ → Option ℤ
  next : ℕ

/-- `write_file` -/
def Counters.write (cs : Counters) (counter : ℕ) (value : ℤ) : Counters :=
  { cs with file := Function.update cs.file counter (some value) }

def Counters.remove (cs : Counters) (counter : ℕ) : Counters :=
  { cs with file := Function.update cs.file counter none }

theorem Counters.write_file_self (cs : Counters) (c : ℕ) (value : ℤ) :
    (cs.write c value).file c = some value :=
  Function.update_self _ _ _

theorem Counters.write_file_of_ne (cs : Counters) {c c' : ℕ} (value : ℤ) (h : c' ≠ c) :
    (cs.write c value).file c' = cs.file c' :=
  Function.update_of_ne h _ _

theorem Counters.remove_file_of_ne (cs : Counters) {c c' : ℕ} (h : c' ≠ c) :
    (cs.remove c).file c' = cs.file c' :=
  Function.update_of_ne h _ _

/-- `WorkerGearbox::make_counter`. -/
def makeCounter (start : ℕ) (cs : Counters) : ℕ × Counters :=
  (cs.next, { cs.write cs.next start with next := cs.next + 1 })

/-- The progress that the job of level `level` sets, in a queue of `size` levels. -/
def levelProgress (size level : ℕ) : ℕ :=
  let progress := 100 / size * level
  if progress = 0 then 1 else progress

/-- The loop of `do_run_global_agents_v1` over the levels from `level` on. It starts at
the last level, and the counters are made in this order. -/
def nextLevel (size : ℕ) (content : String) :
    ℕ → List (List Agent) → Counters → Envelope × Counters
  | _, [], cs => (.runlevel none "" [], cs)
  | level, inDegree :: rest, cs =>
      let (next, cs) := nextLevel size content (level + 1) rest cs
      match inDegree with
      | [a] =>
          (.runlevel (some (levelProgress size level)) content [.agent a "" next], cs)
      | _ =>
          let (counter, cs) := makeCounter inDegree.length cs
          let decCounter := .decrement counter next
          (.runlevel (some (levelProgress size level)) content
            (inDegree.map fun a => .agent a "" decCounter), cs)

/-- The answer of a handler that has not thrown. -/
inductive Response where
  | success
  | continue
  | retry
  deriving DecidableEq, Repr

/-- `do_runlevel_global_agents_v1`, with the jobs that it puts into `afterwards`. -/
def doRunlevelGlobalAgents (event : Option EventStatus) (content : String)
    (jobs : List Envelope) : Except Error (Response × List Envelope) := do
  if let some evt := event then
    if ! (← evt.isSuccess) then
      throw (throwFromCode evt.code (evt.messages.getLast?.getD "Unknown error from agent"))
  if jobs.length = 0 then
    return (.success, [])
  return (.continue, jobs.map (Envelope.setContent content))

/-- What a job that is ready to run begins with. -/
def EventStatus.fresh : EventStatus :=
  ⟨.running, 0, -1, []⟩

/-- The status with which `run_job` fires COMPLETED, if it does, for a job whose response
has the status `s`. -/
def completedEvent (s : EventStatus) : Except Error Response → Option EventStatus
  | .ok .continue => none
  | .ok .retry => none
  | result =>
      let s :=
        if s.progress ≠ 100 then
          match result with
          | .error err =>
              if err.code ≥ 300 then
                ⟨.completed, 100, err.code, s.messages ++ [err.message]⟩
              else ⟨.completed, 100, 0, s.messages⟩
          | .ok _ => ⟨.completed, 100, 0, s.messages⟩
        else s
      if s.state = .completed ∨ s.state = .stopped then some s else none

/-- What `do_decrement_global_counter_v1` does before it opens the file. -/
inductive Entry where
  /-- it throws; the status of the response is `s` -/
  | threw (s : EventStatus) (err : Error)
  /-- `evt->messages().back()` on an empty vector -/
  | crashed
  /-- the file does not exist -/
  | missing
  | opens
  deriving DecidableEq, Repr

def decrementEntry (event : Option EventStatus) (exist : Bool) : Entry :=
  let locate := if exist then Entry.opens else Entry.missing
  match event with
  | none => locate
  | some evt =>
      match evt.isSuccess with
      | .error err => .threw .fresh err
      | .ok true => locate
      | .ok false =>
          match evt.messages.getLast? with
          | none => .crashed
          | some message => .threw evt (throwFromCode evt.code message)

/-- The work that is on its way. -/
inductive Task where
  /-- a job at the gearman server, with the status of the job that fired it -/
  | queued (job : Envelope) (event : Option EventStatus)
  /-- the queue `afterwards` of a worker -/
  | afterwards (jobs : List Envelope)
  /-- a decrement that waits for the lock -/
  | locking (counter : ℕ) (completed : Envelope) (event : Option EventStatus)
  /-- a decrement that has written `value`, not above 0, and released the lock -/
  | removing (counter : ℕ) (value : ℤ) (completed : Envelope)

/-- What one execution does. -/
inductive Action where
  | aborted (progress : Option ℕ) (err : Error)
  | started (progress : Option ℕ) (agents : List String)
  | dispatched (agent : String)
  | refused (agent : String)
  | cleared
  | completed (agent : String) (status : EventStatus)
  | failed (counter : ℕ)
  | crashed (counter : ℕ)
  | missing (counter : ℕ)
  | opened (counter : ℕ)
  | decremented (counter : ℕ) (value : ℤ)
  | retried (counter : ℕ)
  | removed (counter : ℕ) (value : ℤ)
  deriving DecidableEq, Repr

/-- An action, and the job whose run it causes by firing an event. -/
structure Label where
  action : Action
  fires : Option (Envelope × EventStatus)

/-- `handle_event` for COMPLETED: the handler runs with the status of the event. -/
def fire (completed : Envelope) (event : Option EventStatus) : List Task :=
  (event.map fun s => Task.queued completed (some s)).toList

/-- An action that fires COMPLETED for `completed` if there is an event. -/
def Action.firing (action : Action) (completed : Envelope) (event : Option EventStatus) :
    Label :=
  ⟨action, event.map fun s => (completed, s)⟩

/-- An action that fires nothing that concerns the agents. -/
def Action.silent (action : Action) : Label :=
  ⟨action, none⟩

/-- The statuses with which `run_job` fires COMPLETED. -/
def EventStatus.Final (s : EventStatus) : Prop :=
  s.progress = 100 ∧ (s.state = .completed ∨ s.state = .stopped)

/-- The execution of one task. An agent does what it likes and completes at some time
with some final status. -/
inductive Exec : Task → Counters → Label → List Task → Counters → Prop
  | aborted (progress : Option ℕ) (content : String) (jobs : List Envelope)
      (event : Option EventStatus) (cs : Counters) (err : Error)
      (h : doRunlevelGlobalAgents event content jobs = .error err) :
      Exec (.queued (.runlevel progress content jobs) event) cs
        (Action.aborted progress err).silent [] cs
  | started (progress : Option ℕ) (content : String) (jobs agents : List Envelope)
      (event : Option EventStatus) (cs : Counters) (resp : Response)
      (h : doRunlevelGlobalAgents event content jobs = .ok (resp, agents)) :
      Exec (.queued (.runlevel progress content jobs) event) cs
        (Action.started progress (agents.map Envelope.agentName)).silent
        [.afterwards agents] cs
  | dispatched (job : Envelope) (jobs : List Envelope) (cs : Counters) :
      Exec (.afterwards (job :: jobs)) cs (Action.dispatched job.agentName).silent
        [.queued job none, .afterwards jobs] cs
  /-- `Job::run` throws, the content does not fit the schema of the agent; the rest of the
  queue stays for the next job of the worker -/
  | refused (job : Envelope) (jobs : List Envelope) (cs : Counters) :
      Exec (.afterwards (job :: jobs)) cs (Action.refused job.agentName).silent
        [.afterwards jobs] cs
  /-- the queue is empty, or `clear_afterwards` after the failure of that next job -/
  | cleared (jobs : List Envelope) (cs : Counters) :
      Exec (.afterwards jobs) cs Action.cleared.silent [] cs
  | completed (a : Agent) (content : String) (completed : Envelope)
      (event : Option EventStatus) (cs : Counters) (status : EventStatus)
      (h : status.Final) :
      Exec (.queued (.agent a content completed) event) cs
        ((Action.completed a.name status).firing completed (some status))
        (fire completed (some status)) cs
  | failed (counter : ℕ) (completed : Envelope) (event : Option EventStatus)
      (cs : Counters) (s : EventStatus) (err : Error)
      (h : decrementEntry event (cs.file counter).isSome = .threw s err) :
      Exec (.queued (.decrement counter completed) event) cs
        ((Action.failed counter).firing completed (completedEvent s (.error err)))
        (fire completed (completedEvent s (.error err))) cs
  | crashed (counter : ℕ) (completed : Envelope) (event : Option EventStatus)
      (cs : Counters) (h : decrementEntry event (cs.file counter).isSome = .crashed) :
      Exec (.queued (.decrement counter completed) event) cs
        (Action.crashed counter).silent [] cs
  | missing (counter : ℕ) (completed : Envelope) (event : Option EventStatus)
      (cs : Counters) (h : decrementEntry event (cs.file counter).isSome = .missing) :
      Exec (.queued (.decrement counter completed) event) cs
        ((Action.missing counter).firing completed (completedEvent .fresh (.ok .success)))
        (fire completed (completedEvent .fresh (.ok .success))) cs
  | opened (counter : ℕ) (completed : Envelope) (event : Option EventStatus)
      (cs : Counters) (h : decrementEntry event (cs.file counter).isSome = .opens) :
      Exec (.queued (.decrement counter completed) event) cs
        (Action.opened counter).silent [.locking counter completed event] cs
  | decremented (counter : ℕ) (completed : Envelope) (event : Option EventStatus)
      (cs : Counters) (value : ℤ) (h : cs.file counter = some value) :
      Exec (.locking counter completed event) cs
        (Action.decremented counter (value - 1)).silent
        (if value - 1 > 0 then [] else [.removing counter (value - 1) completed])
        (cs.write counter (value - 1))
  | retried (counter : ℕ) (completed : Envelope) (event : Option EventStatus)
      (cs : Counters) (h : cs.file counter = none) :
      Exec (.locking counter completed event) cs (Action.retried counter).silent
        [.queued (.decrement counter completed) event] cs
  | removed (counter : ℕ) (value : ℤ) (completed : Envelope) (cs : Counters) :
      Exec (.removing counter value completed) cs
        ((Action.removed counter value).firing completed
          (completedEvent .fresh (.ok .success)))
        (fire completed (completedEvent .fresh (.ok .success))) (cs.remove counter)

/-- The pool after `do_run_global_agents_v1`: the job of the first level, which is a copy
of the request's job and so has its event. -/
def doRunGlobalAgents (q : List (List Agent)) (content : String)
    (event : Option EventStatus) (cs : Counters) : Pool Counters Task :=
  let (job, cs) := nextLevel q.length content 0 q cs
  ⟨cs, [.queued job event]⟩

end Agents

end Gearbox
