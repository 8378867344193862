import Mathlib.Data.Int.Notation
import Gearbox.Interleaving.System
import Gearbox.Status.State

/-!
# The SQL status implementation

A `Row` is one row of the table `status` and a `Handle` is one `SQLStatusImpl` on
it: the cached columns of the base class, and the flags `loaded` and
`shouldLoad`. The operations are programs over the row: a `SELECT` outside a
transaction is one read, a transaction is one update, and everything in between
is local to the handle. The retry loops around the transactions are the `retry`
steps of the system, since a failed transaction is rolled back and tried again
with the same cached values.

The columns that never change after the row was inserted (`name`, `operation`,
`component`, `resource_uri`), the time stamps and the tables of messages, children
and meta data are left out: no operation here reads them.
-/

namespace Gearbox

namespace Status

open Interleaving

/-- One row of the table `status`. -/
structure Row where
  state : State
  progress : ℕ
  code : ℤ
  ytime : ℤ
  failures : ℕ
  concurrency : ℤ
  deriving DecidableEq, Repr, Inhabited

/-- What an operation throws. -/
inductive Thrown where
  | internalServerError (what : String)
  | workerStop
  deriving DecidableEq, Repr

/-- One `SQLStatusImpl`: the cached fields of `StatusImpl::Private` and the flags
of the lazy loading. The defaults are those of the constructors. -/
structure Handle where
  state : State := .unknown
  progress : ℕ := 0
  code : ℤ := -1
  ytime : ℤ := -1
  failures : ℕ := 0
  loaded : Bool := false
  shouldLoad : Bool := false
  deriving DecidableEq, Repr, Inhabited

/-- `ERR_CONFLICT().code()` -/
def errConflict : ℤ := 409

/-- `ERR_GONE().code()` -/
def errGone : ℤ := 410

namespace Handle

/-- `StatusImpl::state(State)`: change the cached state if the transition is
valid, and say whether it was. -/
def superState (h : Handle) (s : State) : Bool × Handle :=
  if validStateTransition h.state s then (true, { h with state := s }) else (false, h)

/-- The cached fields after the columns of `r` have been assigned to them. The
state goes through `superState`, whose answer is ignored. -/
def assign (h : Handle) (r : Row) : Handle :=
  let h := { h with progress := r.progress, code := r.code, ytime := r.ytime }
  let h := (h.superState r.state).2
  { h with failures := r.failures, loaded := true, shouldLoad := true }

section Operations

variable {X : Type} {Y : X → Type}

/-- `SQLStatusImpl::really_load` -/
def reallyLoad (h : Handle) : Prog Row Y Handle := do
  let r ← Prog.select
  return h.assign r

/-- `SQLStatusImpl::sync` -/
def sync (h : Handle) : Prog Row Y Handle :=
  reallyLoad (h.superState .unknown).2

/-- The lazy loading in front of every getter. -/
def lazyLoad (h : Handle) : Prog Row Y Handle :=
  if !h.loaded then h.reallyLoad else pure h

/-- `SQLStatusImpl::state() const` -/
def getState (h : Handle) : Prog Row Y (State × Handle) := do
  let h ← h.lazyLoad
  return (h.state, h)

/-- `SQLStatusImpl::code() const` -/
def getCode (h : Handle) : Prog Row Y (ℤ × Handle) := do
  let h ← h.lazyLoad
  return (h.code, h)

/-- The transaction of `SQLStatusImpl::state(State)`. -/
def stateTx (h : Handle) (s : State) (r : Row) : Row :=
  if validStateTransition r.state s then { r with state := h.state } else r

/-- `SQLStatusImpl::state(State)` -/
def setState (h : Handle) (s : State) : Prog Row Y (Bool × Handle) := do
  let h ← (if h.shouldLoad && !h.loaded then h.reallyLoad else pure h)
  let (valid, h) := h.superState s
  if !valid then
    return (false, h)
  else
    let current ← Prog.transact (h.stateTx s)
    return (validStateTransition current.state s, h)

/-- The cached code and progress that `SQLStatusImpl::end` writes. -/
def complete (h : Handle) (code : ℤ) : Handle :=
  if h.progress < 100 then { h with code := code, progress := 100 } else h

/-- The transaction of `SQLStatusImpl::end`. -/
def endTx (h : Handle) (s : State) (r : Row) : Row :=
  if validStateTransition r.state s then
    { r with progress := h.progress, code := h.code, state := h.state }
  else r

/-- `SQLStatusImpl::end` -/
def endWith (h : Handle) (code : ℤ) (s : State) :
    Prog Row Y (Except Thrown Unit × Handle) := do
  let h ← (if !h.loaded then h.reallyLoad else h.sync)
  let (valid, h) := h.superState s
  if !valid then
    return (.error (.internalServerError ("Invalid status state change from "
      ++ state2str h.state ++ " to " ++ state2str s)), h)
  else
    let h := h.complete code
    let _ ← Prog.transact (h.endTx s)
    return (.ok (), h)

/-- `SQLStatusImpl::fail` -/
def fail (h : Handle) (code : ℤ) : Prog Row Y (Except Thrown Unit × Handle) :=
  h.endWith code .completed

/-- `SQLStatusImpl::success` -/
def success (h : Handle) : Prog Row Y (Except Thrown Unit × Handle) :=
  h.endWith 0 .completed

/-- `SQLStatusImpl::cancel` -/
def cancel (h : Handle) : Prog Row Y (Except Thrown Unit × Handle) := do
  let (s, h) ← h.getState
  if s ≠ .cancelled then
    let (c, h) ← h.getCode
    h.endWith (if c = -1 then errConflict else c) .cancelled
  else
    return (.ok (), h)

/-- `SQLStatusImpl::code(int)` -/
def setCode (h : Handle) (code : ℤ) : Prog Row Y Handle := do
  let _ ← Prog.transact fun r => { r with code := code }
  return { h with code := code }

/-- `SQLStatusImpl::progress(unsigned)`: the column only grows. -/
def setProgress (h : Handle) (p : ℕ) : Prog Row Y Handle := do
  let _ ← Prog.transact fun r =>
    if r.progress < p then { r with progress := p } else r
  return { h with progress := p }

/-- `SQLStatusImpl::ytime(int64_t)` -/
def setYtime (h : Handle) (t : ℤ) : Prog Row Y Handle := do
  let _ ← Prog.transact fun r => { r with ytime := t }
  return { h with ytime := t }

/-- `Status::checkpoint` over `SQLStatusImpl`. -/
def checkpoint (h : Handle) : Prog Row Y (Except Thrown Unit × Handle) := do
  let h ← h.sync
  let (s, h) ← h.getState
  match s with
  | .stopping | .stopped | .cancelling | .cancelled =>
      let (changed, h) ← h.setState .stopped
      if changed then
        let h ← h.setCode errGone
        let h ← h.setProgress 100
        return (.error .workerStop, h)
      else
        return (.error .workerStop, h)
  | _ => return (.ok (), h)

end Operations

end Handle

/-- The calls on a handle that the system interleaves. -/
inductive Op where
  | state (s : State) (hs : s ≠ .unknown)
  | success
  | fail (code : ℤ)
  | cancel
  | checkpoint
  | sync
  deriving DecidableEq

/-- How a call ended. -/
inductive Outcome where
  | returned
  | answered (b : Bool)
  | threw (e : Thrown)
  deriving DecidableEq

def Outcome.ofExcept : Except Thrown Unit → Outcome
  | .ok () => .returned
  | .error e => .threw e

/-- The program of one call. No call leaves the database. -/
def run : Op → Handle → Prog Row (X := Empty) (fun _ => Unit) (Outcome × Handle)
  | .state s _, h => do
      let (b, h) ← h.setState s
      return (.answered b, h)
  | .success, h => do
      let (r, h) ← h.success
      return (.ofExcept r, h)
  | .fail code, h => do
      let (r, h) ← h.fail code
      return (.ofExcept r, h)
  | .cancel, h => do
      let (r, h) ← h.cancel
      return (.ofExcept r, h)
  | .checkpoint, h => do
      let (r, h) ← h.checkpoint
      return (.ofExcept r, h)
  | .sync, h => do
      let h ← h.sync
      return (.returned, h)

/-- One row and any number of handles on it. -/
abbrev Database (ι : Type) :=
  Config ι Row (X := Empty) (fun _ => Unit) Handle Op Outcome

/-- A step of such a database. -/
abbrev Database.Label (ι : Type) :=
  Interleaving.Label ι Row (X := Empty) (fun _ => Unit) Handle Op Outcome

end Status

end Gearbox
