import Gearbox.Delay.Processor
import Gearbox.Interleaving.Embed

/-!
# The delay daemon and the workers that wake it

The daemon runs the jobs that are due, reads the time of the next one and waits for it in
`select` on its listening socket. A worker that has added a job or has changed the time of
jobs pokes it: it connects to the socket, and the connection stays in the queue of the
socket until the daemon accepts it. The daemon accepts one connection in every round.

The workers here are the handlers that write to the table `jobs`, from the point where
they do so. A worker that commits and then throws ends without a poke.
-/

namespace Gearbox

namespace Delay

open Interleaving

/-- What `do_put_delay_job_v1` reads of the content of its job. -/
structure DelayContent where
  name : String
  statusName : Option String
  envelope : String
  time : ℤ
  deriving DecidableEq, Repr

namespace Table

/-- The id of the next row. -/
def nextId (t : Table) : ℕ :=
  t.rows.foldr (fun r n => max (r.id + 1) n) 1

theorem lt_nextId {t : Table} {r : JobRow} (hr : r ∈ t.rows) : r.id < t.nextId := by
  have hfold : ∀ rows : List JobRow, r ∈ rows →
      r.id < rows.foldr (fun r n => max (r.id + 1) n) 1 := by
    intro rows hmem
    induction rows with
    | nil => cases hmem
    | cons r' rest ih =>
        rcases List.mem_cons.mp hmem with rfl | hmem
        · exact Nat.lt_of_succ_le (Nat.le_max_left _ _)
        · exact Nat.lt_of_lt_of_le (ih hmem) (Nat.le_max_right _ _)
  exact hfold t.rows hr

/-- The row of a new job. -/
def newRow (t : Table) (content : DelayContent) (time ctime : ℤ) : JobRow where
  id := t.nextId
  statusName := content.statusName
  name := content.name
  envelope := content.envelope
  time := time
  ctime := ctime

/-- `INSERT INTO jobs (name,status_name,envelope,time,ctime) VALUES(…)` -/
def insert (t : Table) (content : DelayContent) (time ctime : ℤ) : Table where
  rows := t.rows ++ [t.newRow content time ctime]
  key := by
    rw [List.map_append, List.nodup_append]
    refine ⟨t.key, List.nodup_singleton _, ?_⟩
    intro id hid id' hid' heq
    obtain ⟨r, hr, rfl⟩ := List.mem_map.mp hid
    have hlt := lt_nextId hr
    have hnew : id' = t.nextId := by simpa [newRow] using hid'
    omega

/-- `UPDATE jobs SET time=:time WHERE status_name=:name` -/
def setTime (t : Table) (name : String) (time : ℤ) : Table where
  rows := t.rows.map fun r => if r.statusName = some name then { r with time := time } else r
  key := by
    have hid : (t.rows.map fun r =>
        if r.statusName = some name then { r with time := time } else r).map JobRow.id =
          t.rows.map JobRow.id := by
      rw [List.map_map]
      apply List.map_congr_left
      intro r _
      simp only [Function.comp]
      split
      · rfl
      · rfl
    rw [hid]
    exact t.key

/-- The rows with a status. -/
def withStatus (t : Table) (name : String) : List JobRow :=
  t.rows.filter fun r => r.statusName = some name

/-- `SELECT time from jobs ORDER BY time ASC LIMIT 1` -/
def first (t : Table) : Option ℤ :=
  (t.rows.insertionSort fun r r' => r.time ≤ r'.time).head?.map JobRow.time

end Table

/-- What the daemon and the workers share. A connection in the queue of the socket carries
the text `"1"`; it is kept here with the rows that its worker has committed. -/
structure Shared where
  table : Table
  queue : List (List JobRow)

/-- The timeout of `select`, with the reading of the clock that it was computed from. -/
structure Timeout where
  now : ℤ
  seconds : ℤ
  deriving DecidableEq, Repr

def Timeout.deadline (timeout : Timeout) : ℤ :=
  timeout.now + timeout.seconds

/-- The calls of the daemon and of the workers. -/
inductive Query where
  /-- the calls of `run_delayed_jobs` -/
  | job (x : Call)
  /-- `time(NULL)` -/
  | time
  /-- `select` on the socket, which returns whether there is a connection to accept -/
  | select (timeout : Option Timeout)
  /-- `s->ytime(…)` of the status with this name -/
  | setYtime (name : String) (ytime : ℤ)
  deriving DecidableEq, Repr

abbrev Reply : Query → Type
  | .job x => Answer x
  | .time => ℤ
  | .select _ => Except Error Bool
  | .setYtime _ _ => Except Error Unit

abbrev Task (α : Type) := ExceptT Error (Prog Shared Reply) α

/-- One call. -/
def query (q : Query) : Prog Shared Reply (Reply q) := Prog.perform q

/-- A program that does not throw. -/
def quiet {α : Type} (p : Prog Shared Reply α) : Task α := liftM p

section Workers

/-- `WorkerGearbox::poke_delay_daemon`, by a worker that has committed `rows`. -/
def pokeDelayDaemon (rows : List JobRow) : Task Unit := do
  let _ ← quiet (Prog.transact fun s => { s with queue := s.queue ++ [rows] })
  return ()

/-- `do_put_delay_job_v1`. A transaction that fails is tried again. -/
def doPutDelayJob (runImmediately : Bool) (content : DelayContent) : Task Unit := do
  let now ← quiet (query .time)
  let time := if runImmediately then 0 else content.time
  let s ← quiet (Prog.transact fun s => { s with table := s.table.insert content time now })
  pokeDelayDaemon [s.table.newRow content time now]

/-- The statements with which a handler changes the time of the jobs of a status. -/
def reschedule (name : String) (time : ℤ) : Task Unit := do
  let s ← quiet (Prog.transact fun s => { s with table := s.table.setTime name time })
  ExceptT.mk (query (.setYtime name time))
  pokeDelayDaemon ((s.table.setTime name time).withStatus name)

/-- The part of `do_post_global_status_v1` for a content with `ytime`. -/
def doPostStatus (name : String) (ytime : ℤ) : Task Unit :=
  reschedule name ytime

/-- The part of `do_stop_global_status_v1` for a job that waits in the delay queue. -/
def doStopStatus (name : String) : Task Unit :=
  reschedule name 0

end Workers

section Daemon

variable (decode : String → String → Except Error Job)
  (statusUri : String → String → Except Error String)

/-- The end of `wait_next_job`: `select`, and `accept` if there is a connection. -/
def selectAccept (timeout : Option Timeout) : Task Unit := do
  let ready ← ExceptT.mk (query (.select timeout))
  if ready then
    -- the loop that reads does so from the listening socket and ends at once
    let _ ← quiet (Prog.transact fun s => { s with queue := s.queue.tail })
    return ()
  else
    return ()

/-- `DelayProcessor::wait_next_job` -/
def waitNextJob : Task Unit := do
  let s ← quiet Prog.select
  match s.table.first with
  | none => selectAccept none
  | some when_ => do
      let now ← quiet (query .time)
      if when_ - now ≤ 0 then
        return ()
      else
        selectAccept (some ⟨now, when_ - now⟩)

/-- `run_delayed_jobs` on the table that is shared with the workers. -/
def runDelayedJobsShared (timeout : ℕ) : Task Unit := do
  let now ← quiet (query .time)
  ExceptT.mk ((runDelayedJobs decode statusUri timeout now).run.embed Shared.table
    (fun t s => { s with table := t }) .job fun _ y => y)

/-- The body of the loop of the daemon. -/
def daemonRound (timeout : ℕ) : Task Unit := do
  runDelayedJobsShared decode statusUri timeout
  waitNextJob

end Daemon

/-- What a process is. The daemon stops at an exception. -/
inductive Role where
  | daemon
  | stopped
  | worker
  deriving DecidableEq, Repr

/-- What the processes do. -/
inductive Op where
  | round
  | putDelayJob (content : DelayContent)
  | postStatus (name : String) (ytime : ℤ)
  | stopStatus (name : String)
  deriving DecidableEq, Repr

/-- The settings and the functions that are not modelled here. -/
structure Setup where
  decode : String → String → Except Error Job
  statusUri : String → String → Except Error String
  timeout : ℕ
  runImmediately : Bool

/-- The program of a process for one round of the daemon or one job of a worker. -/
def body (setup : Setup) : Op → Role → Prog Shared Reply (Unit × Role)
  | .round, .daemon => do
      match ← (daemonRound setup.decode setup.statusUri setup.timeout).run with
      | .ok () => return ((), .daemon)
      | .error _ => return ((), .stopped)
  | .putDelayJob content, .worker => do
      let _ ← (doPutDelayJob setup.runImmediately content).run
      return ((), .worker)
  | .postStatus name ytime, .worker => do
      let _ ← (doPostStatus name ytime).run
      return ((), .worker)
  | .stopStatus name, .worker => do
      let _ ← (doStopStatus name).run
      return ((), .worker)
  | _, role => return ((), role)

end Delay

end Gearbox
