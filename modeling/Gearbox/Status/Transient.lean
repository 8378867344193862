import Mathlib.Algebra.Order.Ring.Int
import Mathlib.Logic.Function.Basic
import Gearbox.Status.State

/-!
# The transient status implementation

A transient status lives in the process: `TransientStatusData` is a record behind
a shared pointer, the list `db` keeps the last hundred of them, and every handle
has the pointer and a cache of its own, which the base class holds. A record stays
alive as long as a handle points to it, also after `db` has dropped it, so the
pointers are indices into a heap that only grows.

The fields are those of the SQL row and the name; texts, time stamps and event
handlers are left out, since nothing here reads them.
-/

namespace Gearbox

namespace Status

namespace Transient

/-- `TransientStatusData` with the defaults of its constructor. -/
structure TransientStatusData where
  name : String := ""
  state : State := .unknown
  progress : ℕ := 0
  code : ℤ := -1
  ytime : ℤ := -1
  failures : ℕ := 0
  concurrency : ℕ := 0
  deriving DecidableEq, Repr, Inhabited

def maxQueue : ℕ := 100

/-- The records that were ever allocated and the queue `db` of those in use. -/
structure TransDB where
  heap : ℕ → TransientStatusData := fun _ => {}
  next : ℕ := 0
  db : List ℕ := []

/-- One `TransientStatusImpl`: the cached fields of the base class and `data`. -/
structure TransientStatusImpl where
  name : String := ""
  state : State := .unknown
  progress : ℕ := 0
  code : ℤ := -1
  ytime : ℤ := -1
  failures : ℕ := 0
  concurrency : ℕ := 0
  data : Option ℕ := none
  deriving DecidableEq, Repr, Inhabited

/-- Write through a pointer. -/
def TransDB.write (d : TransDB) (i : ℕ)
    (f : TransientStatusData → TransientStatusData) : TransDB :=
  { d with heap := Function.update d.heap i (f (d.heap i)) }

@[simp] theorem TransDB.write_heap_self (d : TransDB) (i : ℕ)
    (f : TransientStatusData → TransientStatusData) :
    (d.write i f).heap i = f (d.heap i) := by
  simp [TransDB.write]

namespace TransientStatusImpl

/-- The state behind the pointer of a handle. -/
def stored (t : TransientStatusImpl) (d : TransDB) : Option State :=
  t.data.map fun i => (d.heap i).state

/-- `StatusImpl::state(State)` -/
def superState (t : TransientStatusImpl) (s : State) : Bool × TransientStatusImpl :=
  if validStateTransition t.state s then (true, { t with state := s }) else (false, t)

/-- `TransientStatusImpl::state(State)` -/
def setState (t : TransientStatusImpl) (d : TransDB) (s : State) :
    Bool × TransientStatusImpl × TransDB :=
  match t.data with
  | none =>
      let (b, t) := t.superState s
      (b, t, d)
  | some i =>
      if !validStateTransition (d.heap i).state s then (false, t, d)
      else
        let d := d.write i fun r => { r with state := s }
        let (b, t) := t.superState s
        (b, t, d)

/-- `TransientStatusImpl::load`: the last record of that name, or the one the
handle points to if there is none; `none` is `ERR_NOT_FOUND`. -/
def load (t : TransientStatusImpl) (d : TransDB) : Option TransientStatusImpl :=
  let data := (d.db.findRev? fun i => (d.heap i).name = t.name).or t.data
  match data with
  | none => none
  | some i =>
      let r := d.heap i
      let t := { t with data := some i }
      let t := (t.superState r.state).2
      some { t with progress := r.progress, code := r.code, ytime := r.ytime,
                    concurrency := r.concurrency }

/-- `TransientStatusImpl::sync` -/
def sync (t : TransientStatusImpl) (d : TransDB) : Option TransientStatusImpl :=
  (t.superState .unknown).2.load d

/-- `TransientStatusImpl::insert` -/
def insert (t : TransientStatusImpl) (d : TransDB) : TransientStatusImpl × TransDB :=
  let db := if d.db.length = maxQueue then d.db.tail else d.db
  let i := d.next
  let d := { d with heap := Function.update d.heap i {}, next := i + 1,
                    db := db ++ [i] }
  let t := { t with data := some i }
  let d := d.write i fun r => { r with name := t.name }
  (t.setState d t.state).2

end TransientStatusImpl

end Transient

end Status

end Gearbox
