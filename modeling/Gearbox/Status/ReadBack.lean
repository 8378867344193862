import Mathlib.Logic.Function.Basic
import Gearbox.Json.Copy
import Gearbox.Json.Order
import Gearbox.Status.Tables

/-!
# Reading a transient status back

`Transient` has the fields of a transient status that its counters and states need. Here the
records have all fields, and the handles are `StatusImpl`s with a pointer to their record. A
pointer is a number of a heap that only grows, and `db` holds the numbers of the last hundred
records.

The setters of the base class call `mtime` where they set the time, and that call is virtual:
it also writes the time to the record. Every handle has a clock of its own.

Statuses are created and fetched and their setters called in any order. `Fields` are what the
setters write, and `Fields.written` says what a setter is to leave.
-/

namespace Gearbox

namespace TransientStatus

open Json Refinement Status

variable {D : Type}

/-- What the setters of a status write. -/
structure Fields (D : Type) where
  messages : List String := []
  children : List String := []
  metaData : Json D := .undef
  progress : UInt32 := 0
  code : Int32 := -1
  state : State := .unknown
  parentUri : String := ""
  ytime : Int64 := -1
  failures : UInt32 := 0
  concurrency : UInt32 := 0

/-- `TransientStatusData` without the event handlers. -/
structure TransientStatusData (D : Type) extends Fields D where
  name : String := ""
  operation : String := ""
  resourceUri : String := ""
  component : String := ""
  ctime : Int64
  mtime : Int64

/-- The records that were ever allocated, and the queue `db` of those in use. -/
structure TransDB (D : Type) where
  heap : ℕ → TransientStatusData D := fun _ => { ctime := 0, mtime := 0 }
  next : ℕ := 0
  db : List ℕ := []

def maxQueue : ℕ := 100

/-- Write through a pointer. -/
def TransDB.write (d : TransDB D) (i : ℕ)
    (f : TransientStatusData D → TransientStatusData D) : TransDB D :=
  { d with heap := Function.update d.heap i (f (d.heap i)) }

/-- A `TransientStatusImpl`. -/
structure TransientStatusImpl (D : Type) where
  impl : StatusImpl D
  data : Option ℕ := none

/-- One handle and the records. -/
structure Session (D : Type) extends TransientStatusImpl D where
  records : TransDB D

abbrev TransM (D : Type) : Type → Type :=
  Code (Session D) Failure

/-- What a status returns for the fields. -/
def fieldsOf (s : StatusImpl D) : Fields D where
  messages := s.messages
  children := s.children
  metaData := s.metaData
  progress := s.progress
  code := s.code
  state := s.state
  parentUri := s.parentUri
  ytime := s.ytime
  failures := s.failures
  concurrency := s.concurrency

section Setters

/-- Changes the record of the handle, if it has one. -/
def Session.writeData (s : Session D) (f : TransientStatusData D → TransientStatusData D) :
    Session D :=
  match s.data with
  | none => s
  | some i => { s with records := s.records.write i f }

def writeData (f : TransientStatusData D → TransientStatusData D) : TransM D Unit :=
  modify fun s => s.writeData f

/-- A setter of the base class. If it sets the time then it calls `mtime`. -/
def Session.super (s : Session D) (f : StatusImpl D → StatusImpl D) : Session D :=
  if (f s.impl).asked = s.impl.asked then { s with impl := f s.impl }
  else { s with impl := f s.impl }.writeData fun r => { r with mtime := (f s.impl).mtime }

def super (f : StatusImpl D → StatusImpl D) : TransM D Unit :=
  modify fun s => s.super f

/-- A setter of the base class that may throw. -/
def trySuper (f : StatusImpl D → Except Failure (StatusImpl D)) : TransM D Unit := do
  let s ← get
  let impl ← liftM (f s.impl)
  super fun _ => impl

/-- A setter: it writes the record, and then calls the setter of the base class. -/
def set (f : TransientStatusData D → TransientStatusData D) (g : StatusImpl D → StatusImpl D) :
    TransM D Unit := do
  writeData f
  super g

variable (clock : ℕ → Int64)

def setMessages (messages : List String) : TransM D Unit :=
  set (fun r => { r with messages := messages }) fun s => { s with messages := messages }

def addMessage (message : String) : TransM D Unit :=
  set (fun r => { r with messages := r.messages ++ [message] })
    fun s => s.addMessage clock message

def setChildren (children : List String) : TransM D Unit :=
  set (fun r => { r with children := children }) fun s => { s with children := children }

def addChild (child : String) : TransM D Unit :=
  set (fun r => { r with children := r.children ++ [child] }) fun s => s.addChild clock child

def setName (n : String) : TransM D Unit :=
  set (fun r => { r with name := n }) fun s => s.setName clock n

def setOperation (op : String) : TransM D Unit :=
  set (fun r => { r with operation := op }) fun s => s.setOperation clock op

def setResourceUri (uri : String) : TransM D Unit :=
  set (fun r => { r with resourceUri := uri }) fun s => s.setResourceUri clock uri

def setComponent (c : String) : TransM D Unit :=
  set (fun r => { r with component := c }) fun s => s.setComponent clock c

/-- `json[key] = value` -/
def assignMember (key : String) (value : Json D) : Json D → Except Failure (Json D)
  | .object o => do return .object (Assoc.assign key (← value.copy) o)
  | .undef => do return .object (Assoc.assign key (← value.copy) [])
  | j => throw (.json ("cannot access object key \"" ++ key ++ "\" on type "
      ++ j.type.typeToName))

/-- `TransientStatusImpl::meta( key, value )` -/
def setMetaKey (key : String) (value : Json D) : TransM D Unit := do
  let s ← get
  match s.data with
  | none => pure ()
  | some i =>
      let metaData ← liftM (assignMember key value (s.records.heap i).metaData)
      writeData fun r => { r with metaData := metaData }
  trySuper fun s => SqlStatus.setMetaKey clock s key value

/-- `TransientStatusImpl::meta( meta )` -/
def setMeta (metaData : Json D) : TransM D Unit := do
  let s ← get
  match s.data with
  | none => pure ()
  | some _ =>
      let copy ← liftM metaData.copy
      writeData fun r => { r with metaData := copy }
  trySuper fun s => s.setMeta clock metaData

def setProgress (p : UInt32) : TransM D Unit :=
  set (fun r => { r with progress := p }) fun s => s.setProgress clock p

def setCode (c : Int32) : TransM D Unit :=
  set (fun r => { r with code := c }) fun s => { s with code := c }

/-- `TransientStatusImpl::state`; an invalid transition changes nothing. -/
def setState (state : State) : TransM D Bool := do
  let s ← get
  let valid := match s.data with
    | none => true
    | some i => validStateTransition (s.records.heap i).state state
  if valid then
    writeData fun r => { r with state := state }
    super fun s => (s.setState clock state).2
    return (s.impl.setState clock state).1
  else
    return false

def setParentUri (parent : String) : TransM D Unit :=
  set (fun r => { r with parentUri := parent }) fun s => s.setParentUri clock parent

def setCtime (t : Int64) : TransM D Unit :=
  set (fun r => { r with ctime := t }) fun s => { s with ctime := t }

def setMtime (t : Int64) : TransM D Unit :=
  set (fun r => { r with mtime := t }) fun s => { s with mtime := t }

def setYtime (t : Int64) : TransM D Unit :=
  set (fun r => { r with ytime := t }) fun s => { s with ytime := t }

def setFailures (count : UInt32) : TransM D Unit :=
  set (fun r => { r with failures := count }) fun s => { s with failures := count }

def setConcurrency (count : UInt32) : TransM D Unit :=
  set (fun r => { r with concurrency := count }) fun s => { s with concurrency := count }

def starting : TransM D Unit := do
  let s ← get
  setConcurrency (s.impl.concurrency + 1)

def stopping : TransM D Unit := do
  let s ← get
  setConcurrency (s.impl.concurrency - 1)

end Setters

section Manager

variable (clock : ℕ → Int64)

/-- The last record in the queue that has the name. -/
def TransDB.newest (d : TransDB D) (name : String) : Option ℕ :=
  d.db.findRev? fun i => (d.heap i).name = name

/-- `TransientStatusImpl::load`, which leaves `failures` as they are. -/
def load : TransM D Unit := do
  modify fun s => { s with data := (s.records.newest s.impl.name).or s.data }
  let s ← get
  match s.data with
  | none => throw (.std ("status " ++ s.impl.name ++ " not found"))
  | some i =>
      let r := s.records.heap i
      super fun s => { s with messages := r.messages }
      super fun s => { s with children := r.children }
      super fun s => s.setOperation clock r.operation
      super fun s => s.setResourceUri clock r.resourceUri
      super fun s => s.setComponent clock r.component
      super fun s => (s.setState clock r.state).2
      trySuper fun s => s.setMeta clock r.metaData
      super fun s => s.setProgress clock r.progress
      super fun s => { s with code := r.code }
      super fun s => s.setParentUri clock r.parentUri
      super fun s => { s with ctime := r.ctime }
      super fun s => { s with ytime := r.ytime }
      setMtime r.mtime
      super fun s => { s with concurrency := r.concurrency }

/-- `TransientStatusImpl::insert` -/
def insert : TransM D Unit := do
  modify fun s =>
    let d := s.records
    let db := if d.db.length = maxQueue then d.db.tail else d.db
    let r : TransientStatusData D :=
      { ctime := clock s.impl.asked, mtime := clock (s.impl.asked + 1) }
    { impl := { s.impl with asked := s.impl.asked + 2 }
      data := some d.next
      records := { heap := Function.update d.heap d.next r, next := d.next + 1,
                   db := db ++ [d.next] } }
  let s ← get
  setName clock s.impl.name
  setOperation clock s.impl.operation
  setResourceUri clock s.impl.resourceUri
  setComponent clock s.impl.component
  let _ ← setState clock s.impl.state
  setMeta clock s.impl.metaData

/-- `StatusManager::create` -/
def create (baseUri name operation resourceUri component : String) : TransM D Unit := do
  super fun s => { s with baseUri := baseUri }
  setName clock name
  setOperation clock operation
  setResourceUri clock resourceUri
  setComponent clock component
  let _ ← setState clock .pending
  insert clock

/-- `StatusManager::fetch` -/
def fetch (baseUri name : String) : TransM D Unit := do
  super fun s => { s with baseUri := baseUri }
  setName clock name
  load clock

/-- A handle that was just allocated. -/
def fresh (d : TransDB D) : Session D where
  impl := StatusImpl.new clock
  records := d

/-- The part of `JobManager::retry` that counts: the number that the delay is computed
from. -/
def retry (baseUri name : String) : TransM D UInt32 := do
  fetch clock baseUri name
  let s ← get
  let retry := s.impl.failures + 1
  setFailures retry
  return retry

end Manager

section Runs

/-- A call of a setter. -/
inductive Setter (D : Type) where
  | messages (messages : List String)
  | addMessage (message : String)
  | children (children : List String)
  | addChild (child : String)
  | metaKey (key : String) (value : Json D)
  | metaData (metaData : Json D)
  | progress (p : UInt32)
  | code (c : Int32)
  | state (state : State)
  | parentUri (parent : String)
  | ytime (t : Int64)
  | failures (count : UInt32)
  | concurrency (count : UInt32)
  | starting
  | stopping

def Setter.call (clock : ℕ → Int64) : Setter D → TransM D Unit
  | .messages ms => setMessages ms
  | .addMessage message => TransientStatus.addMessage clock message
  | .children cs => setChildren cs
  | .addChild child => TransientStatus.addChild clock child
  | .metaKey key value => setMetaKey clock key value
  | .metaData j => setMeta clock j
  | .progress p => setProgress clock p
  | .code c => setCode c
  | .state st => do
      let _ ← setState clock st
  | .parentUri parent => setParentUri clock parent
  | .ytime t => setYtime t
  | .failures count => setFailures count
  | .concurrency count => setConcurrency count
  | .starting => TransientStatus.starting
  | .stopping => TransientStatus.stopping

/-- What a status is to hold after a setter. A setter that throws, and a change of the state
that is refused, write nothing. -/
def Fields.written (f : Fields D) : Setter D → Fields D
  | .messages messages => { f with messages := messages }
  | .addMessage message => { f with messages := f.messages ++ [message] }
  | .children children => { f with children := children }
  | .addChild child => { f with children := f.children ++ [child] }
  | .metaKey key value =>
      match assignMember key value f.metaData with
      | .ok metaData => { f with metaData := metaData }
      | .error _ => f
  | .metaData metaData =>
      match metaData.copy with
      | .ok metaData => { f with metaData := metaData }
      | .error _ => f
  | .progress p => { f with progress := p }
  | .code c => { f with code := c }
  | .state state => if validStateTransition f.state state then { f with state := state } else f
  | .parentUri parent => { f with parentUri := parent }
  | .ytime t => { f with ytime := t }
  | .failures count => { f with failures := count }
  | .concurrency count => { f with concurrency := count }
  | .starting => { f with concurrency := f.concurrency + 1 }
  | .stopping => { f with concurrency := f.concurrency - 1 }

/-- What is done with transient statuses; handles are numbered in the order in which they
were made. -/
inductive Action (D : Type) where
  | create (baseUri name operation resourceUri component : String)
  | fetch (baseUri name : String)
  | set (k : ℕ) (op : Setter D)

/-- The records and the handles of a process. -/
structure World (D : Type) where
  records : TransDB D := {}
  handles : List (TransientStatusImpl D) := []

/-- Makes a new handle, unless the program throws. -/
def World.make (w : World D) (clock : ℕ → Int64) (m : TransM D Unit) : World D :=
  match outcome m (fresh clock w.records) with
  | (.ok (), s) => { records := s.records, handles := w.handles ++ [s.toTransientStatusImpl] }
  | (.error _, s) => { w with records := s.records }

/-- Uses a handle. An exception is caught. -/
def World.use (w : World D) (k : ℕ) (m : TransM D Unit) : World D :=
  match w.handles[k]? with
  | none => w
  | some t =>
      let s := (outcome m { t with records := w.records }).2
      { records := s.records, handles := w.handles.set k s.toTransientStatusImpl }

variable (clock : ℕ → ℕ → Int64)

def World.step (w : World D) : Action D → World D
  | .create baseUri name operation resourceUri component =>
      w.make (clock w.handles.length)
        (TransientStatus.create (clock w.handles.length) baseUri name operation resourceUri
          component)
  | .fetch baseUri name =>
      w.make (clock w.handles.length)
        (TransientStatus.fetch (clock w.handles.length) baseUri name)
  | .set k op => w.use k (op.call (clock k))

def World.run (w : World D) (as : List (Action D)) : World D :=
  as.foldl (World.step clock) w

/-- What is to be in a status that was just created. -/
def Fields.created : Fields D where
  state := .pending

/-- What is to be in the status after the setters that were called through one handle. -/
def lastWritten (k : ℕ) (as : List (Action D)) : Fields D :=
  as.foldl (fun f a =>
    match a with
    | .set k' op => if k' = k then f.written op else f
    | _ => f) Fields.created

/-- The number of statuses that are created. -/
def creations : List (Action D) → ℕ
  | [] => 0
  | .create .. :: as => creations as + 1
  | _ :: as => creations as

/-- No setter is called through another handle of the record. -/
def OneHandle (k i : ℕ) : World D → List (Action D) → Prop
  | _, [] => True
  | w, a :: as =>
      (∀ k' op, a = .set k' op → k' ≠ k → ∀ t, w.handles[k']? = some t → t.data ≠ some i) ∧
        OneHandle k i (w.step clock a) as

end Runs

section Frame

/-- The records after a program that works on one of them. -/
structure Frame (data : Option ℕ) (d d' : TransDB D) : Prop where
  next : d'.next = d.next
  db : d'.db = d.db
  name : ∀ j, (d'.heap j).name = (d.heap j).name
  others : ∀ j, data ≠ some j → d'.heap j = d.heap j

theorem Frame.refl (data : Option ℕ) (d : TransDB D) : Frame data d d :=
  ⟨rfl, rfl, fun _ => rfl, fun _ _ => rfl⟩

theorem Frame.trans {data : Option ℕ} {d d' d'' : TransDB D} (h : Frame data d d')
    (h' : Frame data d' d'') : Frame data d d'' where
  next := h'.next.trans h.next
  db := h'.db.trans h.db
  name j := (h'.name j).trans (h.name j)
  others j hj := (h'.others j hj).trans (h.others j hj)

theorem frame_write {i : ℕ} {d : TransDB D} {f : TransientStatusData D → TransientStatusData D}
    (hname : ∀ r, (f r).name = r.name) : Frame (some i) d (d.write i f) where
  next := rfl
  db := rfl
  name j := by
    by_cases hj : j = i
    · subst hj
      simp [TransDB.write, hname]
    · simp [TransDB.write, hj]
  others j hj := by
    have hne : j ≠ i := fun h => hj (congrArg some h.symm)
    simp [TransDB.write, hne]

variable {s : Session D} {i : ℕ} {F F' : Fields D}

/-- Both the handle and its record hold these values. -/
structure Synced (s : Session D) (i : ℕ) (F : Fields D) : Prop where
  data : s.data = some i
  cached : fieldsOf s.impl = F
  stored : (s.records.heap i).toFields = F

/-- How a program leaves a session: it keeps the pointer and works on that record only. -/
structure Works (s s' : Session D) : Prop where
  data : s'.data = s.data
  frame : Frame s.data s.records s'.records

theorem Works.refl (s : Session D) : Works s s :=
  ⟨rfl, .refl _ _⟩

theorem Works.trans {s s' s'' : Session D} (h : Works s s') (h' : Works s' s'') :
    Works s s'' :=
  ⟨h'.data.trans h.data, h.frame.trans (h.data ▸ h'.frame)⟩

theorem works_writeData {f : TransientStatusData D → TransientStatusData D} {s : Session D}
    (hname : ∀ r, (f r).name = r.name) : Works s (s.writeData f) := by
  unfold Session.writeData
  cases hdata : s.data with
  | none => exact .refl s
  | some i =>
      refine ⟨hdata.symm ▸ rfl, ?_⟩
      rw [hdata]
      exact frame_write hname

@[simp] theorem writeData_impl (s : Session D)
    (f : TransientStatusData D → TransientStatusData D) : (s.writeData f).impl = s.impl := by
  unfold Session.writeData
  cases s.data <;> rfl

theorem toFields_writeData {s : Session D} {f : TransientStatusData D → TransientStatusData D}
    (hf : ∀ r, (f r).toFields = r.toFields) (j : ℕ) :
    ((s.writeData f).records.heap j).toFields = (s.records.heap j).toFields := by
  unfold Session.writeData
  cases s.data with
  | none => rfl
  | some i =>
      by_cases hj : j = i
      · subst hj
        simp [TransDB.write, hf]
      · simp [TransDB.write, hj]

theorem works_super (s : Session D) (f : StatusImpl D → StatusImpl D) : Works s (s.super f) := by
  unfold Session.super
  split
  · exact ⟨rfl, .refl _ _⟩
  · have hmtime : Works { s with impl := f s.impl } ({ s with impl := f s.impl }.writeData
        fun r => { r with mtime := (f s.impl).mtime }) := works_writeData fun _ => rfl
    exact ⟨hmtime.data, hmtime.frame⟩

@[simp] theorem super_impl (s : Session D) (f : StatusImpl D → StatusImpl D) :
    (s.super f).impl = f s.impl := by
  unfold Session.super
  split
  · rfl
  · exact writeData_impl _ _

/-- A setter of the base class changes no field of a record. -/
theorem toFields_super (s : Session D) (f : StatusImpl D → StatusImpl D) (j : ℕ) :
    ((s.super f).records.heap j).toFields = (s.records.heap j).toFields := by
  unfold Session.super
  split
  · rfl
  · refine toFields_writeData (s := { s with impl := f s.impl }) ?_ j
    exact fun _ => rfl

/-- A setter that writes the record and then the cache. -/
theorem works_set (s : Session D) {f : TransientStatusData D → TransientStatusData D}
    {g : StatusImpl D → StatusImpl D} (hname : ∀ r, (f r).name = r.name) :
    Works s ((s.writeData f).super g) :=
  (works_writeData hname).trans (works_super _ g)

theorem outcome_set (f : TransientStatusData D → TransientStatusData D)
    (g : StatusImpl D → StatusImpl D) (s : Session D) :
    outcome (set f g) s = (.ok (), (s.writeData f).super g) := rfl

theorem Synced.set {f : TransientStatusData D → TransientStatusData D}
    {g : StatusImpl D → StatusImpl D} (h : Synced s i F)
    (hname : ∀ r, (f r).name = r.name) (hf : ∀ r, r.toFields = F → (f r).toFields = F')
    (hg : ∀ t, fieldsOf t = F → fieldsOf (g t) = F') :
    Synced ((s.writeData f).super g) i F' where
  data := (works_set s hname).data.trans h.data
  cached := by
    rw [super_impl, writeData_impl]
    exact hg _ h.cached
  stored := by
    rw [toFields_super]
    unfold Session.writeData
    rw [h.data]
    simp only [TransDB.write, Function.update_self]
    exact hf _ h.stored

end Frame

section Call

variable {clock : ℕ → Int64} {s : Session D} {i : ℕ} {F : Fields D}

/-- `StatusImpl::meta( key, value )` is an assignment to the cache. -/
theorem setMetaKey_eq (t : StatusImpl D) (key : String) (value : Json D) :
    SqlStatus.setMetaKey clock t key value =
      (assignMember key value t.metaData).map fun m =>
        StatusImpl.touch clock { t with metaData := m } := by
  unfold SqlStatus.setMetaKey assignMember
  cases t.metaData <;> cases value.copy <;> rfl

theorem outcome_trySuper (f : StatusImpl D → Except Failure (StatusImpl D)) (s : Session D) :
    outcome (trySuper f) s = match f s.impl with
      | .ok impl => (.ok (), s.super fun _ => impl)
      | .error e => (.error e, s) := by
  unfold trySuper
  rw [outcome_bind_ok (outcome_get s), outcome_bind, outcome_lift]
  cases f s.impl <;> rfl

/-- The key is set in the record first, then in the cache. -/
theorem outcome_setMetaKey (key : String) (value : Json D) (s : Session D) :
    outcome (setMetaKey clock key value) s =
      match s.data with
      | none => outcome (trySuper fun t => SqlStatus.setMetaKey clock t key value) s
      | some i =>
          match assignMember key value (s.records.heap i).metaData with
          | .error e => (.error e, s)
          | .ok m => outcome (trySuper fun t => SqlStatus.setMetaKey clock t key value)
              (s.writeData fun r => { r with metaData := m }) := by
  unfold setMetaKey
  rw [outcome_bind_ok (outcome_get s)]
  cases s.data with
  | none => rfl
  | some i =>
      dsimp only
      rw [outcome_bind, outcome_lift]
      cases assignMember key value (s.records.heap i).metaData <;> rfl

theorem outcome_setMeta (j : Json D) (s : Session D) :
    outcome (setMeta clock j) s =
      match s.data with
      | none => outcome (trySuper fun t => t.setMeta clock j) s
      | some _ =>
          match j.copy with
          | .error e => (.error e, s)
          | .ok m => outcome (trySuper fun t => t.setMeta clock j)
              (s.writeData fun r => { r with metaData := m }) := by
  unfold setMeta
  rw [outcome_bind_ok (outcome_get s)]
  cases s.data with
  | none => rfl
  | some i =>
      dsimp only
      rw [outcome_bind, outcome_lift]
      cases j.copy <;> rfl

theorem outcome_setState (st : State) (s : Session D) :
    outcome (setState clock st) s =
      if (match s.data with
        | none => true
        | some i => validStateTransition (s.records.heap i).state st) = true then
        (.ok (s.impl.setState clock st).1,
          (s.writeData fun r => { r with state := st }).super fun t => (t.setState clock st).2)
      else (.ok false, s) := by
  unfold setState
  rw [outcome_bind_ok (outcome_get s)]
  dsimp only
  generalize (match s.data with
    | none => true
    | some i => validStateTransition (s.records.heap i).state st) = valid
  cases valid <;> rfl

theorem works_trySuper (f : StatusImpl D → Except Failure (StatusImpl D)) (s : Session D) :
    Works s (outcome (trySuper f) s).2 := by
  rw [outcome_trySuper]
  cases f s.impl with
  | error e => exact .refl s
  | ok impl => exact works_super s fun _ => impl

theorem works_metaData (m : Json D) (f : StatusImpl D → Except Failure (StatusImpl D))
    (s : Session D) :
    Works s (outcome (trySuper f) (s.writeData fun r => { r with metaData := m })).2 :=
  (works_writeData (f := fun r => { r with metaData := m }) fun _ => rfl).trans
    (works_trySuper f _)

/-- A setter works on the record of its handle. -/
theorem works_call (op : Setter D) (s : Session D) :
    Works s (outcome (op.call clock) s).2 := by
  cases op with
  | metaKey key value =>
      rw [Setter.call, outcome_setMetaKey]
      cases s.data with
      | none => exact works_trySuper _ s
      | some i =>
          dsimp only
          cases assignMember key value (s.records.heap i).metaData with
          | error e => exact .refl s
          | ok m => exact works_metaData m _ s
  | metaData j =>
      rw [Setter.call, outcome_setMeta]
      cases s.data with
      | none => exact works_trySuper _ s
      | some i =>
          dsimp only
          cases j.copy with
          | error e => exact .refl s
          | ok m => exact works_metaData m _ s
  | state st =>
      rw [Setter.call, outcome_bind, outcome_setState]
      generalize (match s.data with
        | none => true
        | some i => validStateTransition (s.records.heap i).state st) = valid
      cases valid with
      | false => exact .refl s
      | true =>
          rw [if_pos rfl]
          exact works_set s (f := fun r => { r with state := st })
            (g := fun t => (t.setState clock st).2) fun _ => rfl
  | _ =>
      simp only [Setter.call, setMessages, addMessage, setChildren, addChild, setProgress,
        setCode, setParentUri, setYtime, setFailures, setConcurrency, starting, stopping,
        outcome_bind_ok (outcome_get s), outcome_set]
      refine works_set s ?_
      exact fun _ => rfl

variable (clock) in
/-- The same new meta data in the record and in the cache. -/
theorem Synced.metaData (h : Synced s i F) (m : Json D) :
    Synced ((s.writeData fun r => { r with metaData := m }).super
      fun _ => StatusImpl.touch clock { s.impl with metaData := m }) i
      { F with metaData := m } := by
  refine h.set ?_ ?_ ?_
  · exact fun _ => rfl
  · rintro r rfl
    rfl
  · intro t _
    rw [← h.cached]
    rfl

/-- The cached state makes the same transition as the one in the record. -/
theorem Synced.state (h : Synced s i F) (st : State)
    (hvalid : validStateTransition F.state st = true) :
    Synced ((s.writeData fun r => { r with state := st }).super
      fun t => (t.setState clock st).2) i { F with state := st } := by
  refine h.set ?_ ?_ ?_
  · exact fun _ => rfl
  · rintro r rfl
    rfl
  · rintro t rfl
    obtain ⟨mtime, asked, hset⟩ := StatusImpl.setState_eq clock t st
    have hstate : validStateTransition t.state st = true := hvalid
    rw [hset, hstate]
    rfl

variable (clock) in
/-- After a setter the handle and its record hold what was to be written. -/
theorem Synced.call (h : Synced s i F) (op : Setter D) :
    Synced (outcome (op.call clock) s).2 i (F.written op) := by
  have hmeta : (s.records.heap i).metaData = F.metaData := by rw [← h.stored]
  have hcache : s.impl.metaData = F.metaData := by rw [← h.cached]; rfl
  have hconcurrency : s.impl.concurrency = F.concurrency := by rw [← h.cached]; rfl
  cases op with
  | metaKey key value =>
      rw [Setter.call, outcome_setMetaKey, h.data, Fields.written]
      dsimp only
      rw [hmeta]
      cases hassign : assignMember key value F.metaData with
      | error e => exact h
      | ok m =>
          dsimp only
          rw [outcome_trySuper, setMetaKey_eq, writeData_impl, hcache, hassign]
          exact h.metaData clock m
  | metaData j =>
      rw [Setter.call, outcome_setMeta, h.data, Fields.written]
      dsimp only
      cases hcopy : j.copy with
      | error e => exact h
      | ok m =>
          dsimp only
          rw [outcome_trySuper, writeData_impl, StatusImpl.setMeta, hcopy]
          exact h.metaData clock m
  | state st =>
      have hstate : (s.records.heap i).state = F.state := by rw [← h.stored]
      rw [Setter.call, outcome_bind, outcome_setState, h.data, Fields.written]
      simp only [hstate]
      by_cases hvalid : validStateTransition F.state st = true
      · rw [if_pos hvalid, if_pos hvalid]
        exact h.state st hvalid
      · rw [if_neg hvalid, if_neg hvalid]
        exact h
  | _ =>
      simp only [Setter.call, setMessages, addMessage, setChildren, addChild, setProgress,
        setCode, setParentUri, setYtime, setFailures, setConcurrency, starting, stopping,
        outcome_bind_ok (outcome_get s), outcome_set, hconcurrency]
      refine h.set ?_ ?_ ?_
      · exact fun _ => rfl
      · rintro r rfl
        rfl
      · rintro t rfl
        rfl

end Call

section Load

variable (clock : ℕ → Int64)

/-- Records whose fields, names and places are the same. -/
structure Untouched (d d' : TransDB D) : Prop where
  next : d'.next = d.next
  db : d'.db = d.db
  name : ∀ j, (d'.heap j).name = (d.heap j).name
  fields : ∀ j, (d'.heap j).toFields = (d.heap j).toFields

theorem Untouched.refl (d : TransDB D) : Untouched d d :=
  ⟨rfl, rfl, fun _ => rfl, fun _ => rfl⟩

theorem Untouched.trans {d d' d'' : TransDB D} (h : Untouched d d') (h' : Untouched d' d'') :
    Untouched d d'' where
  next := h'.next.trans h.next
  db := h'.db.trans h.db
  name j := (h'.name j).trans (h.name j)
  fields j := (h'.fields j).trans (h.fields j)

/-- The program changes the fields of the handle as the function does, and no field of a
record. -/
def Copies (m : TransM D Unit) (g : Fields D → Fields D) : Prop :=
  ∀ s, ∃ s', outcome m s = (.ok (), s') ∧ Untouched s.records s'.records ∧ s'.data = s.data ∧
    fieldsOf s'.impl = g (fieldsOf s.impl)

/-- The program throws, and changes no field of a record. -/
def Stops (m : TransM D Unit) (e : Failure) : Prop :=
  ∀ s, ∃ s', outcome m s = (.error e, s') ∧ Untouched s.records s'.records

theorem Copies.andThen {m m' : TransM D Unit} {g g' : Fields D → Fields D}
    (h : Copies m g) (h' : Copies m' g') : Copies (do m; m') fun F => g' (g F) := by
  intro s
  obtain ⟨s₁, hm, hrecords, hdata, hfields⟩ := h s
  obtain ⟨s₂, hm', hrecords', hdata', hfields'⟩ := h' s₁
  exact ⟨s₂, (outcome_bind_ok hm).trans hm', hrecords.trans hrecords', hdata'.trans hdata,
    hfields'.trans (congrArg g' hfields)⟩

theorem Copies.andStop {m m' : TransM D Unit} {g : Fields D → Fields D} {e : Failure}
    (h : Copies m g) (h' : Stops m' e) : Stops (do m; m') e := by
  intro s
  obtain ⟨s₁, hm, hrecords, -, -⟩ := h s
  obtain ⟨s₂, hm', hrecords'⟩ := h' s₁
  exact ⟨s₂, (outcome_bind_ok hm).trans hm', hrecords.trans hrecords'⟩

theorem Stops.andThen {m m' : TransM D Unit} {e : Failure} (h : Stops m e) :
    Stops (do m; m') e := by
  intro s
  obtain ⟨s₁, hm, hrecords⟩ := h s
  exact ⟨s₁, outcome_bind_error hm, hrecords⟩

theorem copies_super {f : StatusImpl D → StatusImpl D} {g : Fields D → Fields D}
    (h : ∀ t, fieldsOf (f t) = g (fieldsOf t)) : Copies (super f) g := by
  intro s
  obtain ⟨hdata, hnext, hdb, hname, -⟩ := works_super s f
  refine ⟨s.super f, rfl, ⟨hnext, hdb, hname, toFields_super s f⟩, hdata, ?_⟩
  rw [super_impl]
  exact h s.impl

theorem copies_set {f : TransientStatusData D → TransientStatusData D}
    {f' : StatusImpl D → StatusImpl D} {g : Fields D → Fields D}
    (hname : ∀ r, (f r).name = r.name) (hfields : ∀ r, (f r).toFields = r.toFields)
    (h : ∀ t, fieldsOf (f' t) = g (fieldsOf t)) : Copies (set f f') g := by
  intro s
  obtain ⟨hdata, hnext, hdb, hkept, -⟩ := works_set s (g := f') hname
  refine ⟨_, outcome_set f f' s, ⟨hnext, hdb, hkept, fun j => ?_⟩, hdata, ?_⟩
  · exact (toFields_super _ f' j).trans (toFields_writeData hfields j)
  · rw [super_impl, writeData_impl]
    exact h s.impl

/-- The state of the record is copied if the transition to it is valid. -/
theorem copies_state (st : State) : Copies (super fun t : StatusImpl D => (t.setState clock st).2)
    fun F => { F with state := if validStateTransition F.state st then st else F.state } := by
  refine copies_super fun t => ?_
  obtain ⟨mtime, asked, hset⟩ := StatusImpl.setState_eq clock t st
  rw [hset]
  rfl

theorem copies_setMeta {j m : Json D} (h : j.copy = .ok m) :
    Copies (trySuper fun t => t.setMeta clock j) fun F => { F with metaData := j } := by
  intro s
  have hset : s.impl.setMeta clock j =
      .ok (StatusImpl.touch clock { s.impl with metaData := j }) := by
    rw [StatusImpl.setMeta, h, copy_eq h]
    rfl
  obtain ⟨s', hs', hcopied⟩ := copies_super
    (f := fun _ => StatusImpl.touch clock { s.impl with metaData := j })
    (g := fun _ => { fieldsOf s.impl with metaData := j }) (fun _ => rfl) s
  refine ⟨s', ?_, hcopied⟩
  rw [outcome_trySuper, hset]
  exact hs'

theorem stops_setMeta {j : Json D} {e : Failure} (h : j.copy = .error e) :
    Stops (trySuper fun t => t.setMeta clock j) e := by
  intro s
  refine ⟨s, ?_, .refl _⟩
  rw [outcome_trySuper, StatusImpl.setMeta, h]
  rfl

/-- Loading copies the fields of the record to the handle, but not the failures. -/
theorem load_spec {s : Session D} {j : ℕ} (hfound : s.records.newest s.impl.name = some j)
    (hunknown : s.impl.state = .unknown) :
    ∃ s', Untouched s.records s'.records ∧
      match (s.records.heap j).metaData.copy with
      | .error e => outcome (load clock) s = (.error e, s')
      | .ok _ => outcome (load clock) s = (.ok (), s') ∧ s'.data = some j ∧
          fieldsOf s'.impl =
            { (s.records.heap j).toFields with failures := s.impl.failures } := by
  unfold load
  rw [outcome_bind_ok (outcome_modify _ s), outcome_bind_ok (outcome_get _), hfound]
  dsimp only [Option.some_or]
  generalize s.records.heap j = r
  have hmessages : Copies (super fun t : StatusImpl D => { t with messages := r.messages })
      fun F => { F with messages := r.messages } := copies_super fun _ => rfl
  have hchildren : Copies (super fun t : StatusImpl D => { t with children := r.children })
      fun F => { F with children := r.children } := copies_super fun _ => rfl
  have hoperation : Copies (super fun t : StatusImpl D => t.setOperation clock r.operation) id :=
    copies_super fun _ => rfl
  have huri : Copies (super fun t : StatusImpl D => t.setResourceUri clock r.resourceUri) id :=
    copies_super fun _ => rfl
  have hcomponent : Copies (super fun t : StatusImpl D => t.setComponent clock r.component) id :=
    copies_super fun _ => rfl
  have hstate := copies_state (D := D) clock r.state
  cases hcopy : r.metaData.copy with
  | error e =>
      obtain ⟨s', hs', hrecords⟩ := (hmessages.andStop <| hchildren.andStop <|
        hoperation.andStop <| huri.andStop <| hcomponent.andStop <| hstate.andStop <|
        (stops_setMeta clock hcopy).andThen) { s with data := some j }
      exact ⟨s', hrecords, hs'⟩
  | ok m =>
      have hmeta := copies_setMeta clock hcopy
      have hprogress : Copies (super fun t : StatusImpl D => t.setProgress clock r.progress)
          fun F => { F with progress := r.progress } := copies_super fun _ => rfl
      have hcode : Copies (super fun t : StatusImpl D => { t with code := r.code })
          fun F => { F with code := r.code } := copies_super fun _ => rfl
      have hparent : Copies (super fun t : StatusImpl D => t.setParentUri clock r.parentUri)
          fun F => { F with parentUri := r.parentUri } := copies_super fun _ => rfl
      have hctime : Copies (super fun t : StatusImpl D => { t with ctime := r.ctime }) id :=
        copies_super fun _ => rfl
      have hytime : Copies (super fun t : StatusImpl D => { t with ytime := r.ytime })
          fun F => { F with ytime := r.ytime } := copies_super fun _ => rfl
      have hmtime : Copies (setMtime (D := D) r.mtime) id :=
        copies_set (fun _ => rfl) (fun _ => rfl) fun _ => rfl
      have hconcurrency : Copies
          (super fun t : StatusImpl D => { t with concurrency := r.concurrency })
          fun F => { F with concurrency := r.concurrency } := copies_super fun _ => rfl
      obtain ⟨s', hs', hrecords, hdata, hfields⟩ := (hmessages.andThen <| hchildren.andThen <|
        hoperation.andThen <| huri.andThen <| hcomponent.andThen <| hstate.andThen <|
        hmeta.andThen <| hprogress.andThen <| hcode.andThen <| hparent.andThen <|
        hctime.andThen <| hytime.andThen <| hmtime.andThen hconcurrency) { s with data := some j }
      refine ⟨s', hrecords, hs', hdata, ?_⟩
      rw [hfields]
      simp [fieldsOf, hunknown]

/-- The steps of `fetch` before the record is loaded. -/
theorem outcome_fetch (baseUri name : String) (d : TransDB D) :
    ∃ s : Session D, outcome (fetch clock baseUri name) (fresh clock d) = outcome (load clock) s ∧
      s.records = d ∧ s.data = none ∧ s.impl.name = name ∧ fieldsOf s.impl = {} := by
  refine ⟨_, rfl, rfl, rfl, rfl, rfl⟩

/-- A new handle has the fields of the last record of the name, but no failures. -/
theorem fetch_spec (baseUri name : String) (d : TransDB D) {j : ℕ}
    (hfound : d.newest name = some j) :
    ∃ s, Untouched d s.records ∧
      match (d.heap j).metaData.copy with
      | .error e => outcome (fetch clock baseUri name) (fresh clock d) = (.error e, s)
      | .ok _ => outcome (fetch clock baseUri name) (fresh clock d) = (.ok (), s) ∧
          s.data = some j ∧ fieldsOf s.impl = { (d.heap j).toFields with failures := 0 } := by
  obtain ⟨s, hfetch, rfl, hdata, rfl, hfields⟩ := outcome_fetch clock baseUri name d
  have hunknown : s.impl.state = .unknown := congrArg Fields.state hfields
  have hfailures : s.impl.failures = 0 := congrArg Fields.failures hfields
  rw [hfetch, ← hfailures]
  exact load_spec clock hfound hunknown

theorem untouched_fetch (baseUri name : String) (d : TransDB D) :
    Untouched d (outcome (fetch clock baseUri name) (fresh clock d)).2.records := by
  cases hfound : d.newest name with
  | none =>
      obtain ⟨s, hfetch, rfl, hdata, rfl, -⟩ := outcome_fetch clock baseUri name d
      have hload : outcome (load clock) s =
          (.error (.std ("status " ++ s.impl.name ++ " not found")), s) := by
        unfold load
        rw [outcome_bind_ok (outcome_modify _ s), outcome_bind_ok (outcome_get _), hfound]
        obtain ⟨⟨impl, data⟩, records⟩ := s
        obtain rfl : data = none := hdata
        rfl
      rw [hfetch, hload]
      exact .refl _
  | some j =>
      obtain ⟨s, hrecords, hfetch⟩ := fetch_spec clock baseUri name d hfound
      cases hcopy : (d.heap j).metaData.copy with
      | error e =>
          rw [hcopy] at hfetch
          rw [hfetch]
          exact hrecords
      | ok m =>
          rw [hcopy] at hfetch
          rw [hfetch.1]
          exact hrecords

/-- A handle without a record, that has these fields. -/
structure Unallocated (s : Session D) (d : TransDB D) (name : String) (F : Fields D) :
    Prop where
  data : s.data = none
  records : s.records = d
  name : s.impl.name = name
  fields : fieldsOf s.impl = F

/-- A setter of a handle without a record only changes the handle. -/
theorem Unallocated.set {s : Session D} {d : TransDB D} {name name' : String}
    {F F' : Fields D} (h : Unallocated s d name F)
    (f : TransientStatusData D → TransientStatusData D) (g : StatusImpl D → StatusImpl D)
    (hname : (g s.impl).name = name') (hfields : fieldsOf (g s.impl) = F') :
    ∃ s', outcome (set f g) s = (.ok (), s') ∧ Unallocated s' d name' F' := by
  have hwrite : s.writeData f = s := by rw [Session.writeData, h.data]
  refine ⟨_, outcome_set f g s, ?_, ?_, ?_, ?_⟩
  · rw [hwrite, (works_super s g).data, h.data]
  · rw [hwrite, Session.super]
    split
    · exact h.records
    · rw [Session.writeData, h.data]
      exact h.records
  · rw [hwrite, super_impl, hname]
  · rw [hwrite, super_impl, hfields]

/-- `create` up to `insert`. -/
theorem outcome_create (baseUri name operation resourceUri component : String) (d : TransDB D) :
    ∃ s : Session D, outcome (create clock baseUri name operation resourceUri component)
        (fresh clock d) = outcome (insert clock) s ∧
      s.records = d ∧ s.impl.name = name ∧ fieldsOf s.impl = .created := by
  unfold create
  have hbase : outcome (super fun t => { t with baseUri := baseUri }) (fresh clock d) =
      (.ok (), { impl := { StatusImpl.new clock with baseUri := baseUri }, records := d }) := rfl
  have hfresh : Unallocated (D := D)
      { impl := { StatusImpl.new clock with baseUri := baseUri }, records := d } d "" {} :=
    ⟨rfl, rfl, rfl, rfl⟩
  obtain ⟨s₁, hname, h₁⟩ := hfresh.set (fun r => { r with name := name })
    (fun t => t.setName clock name) rfl rfl
  obtain ⟨s₂, hoperation, h₂⟩ := h₁.set (fun r => { r with operation := operation })
    (fun t => t.setOperation clock operation) h₁.name h₁.fields
  obtain ⟨s₃, huri, h₃⟩ := h₂.set (fun r => { r with resourceUri := resourceUri })
    (fun t => t.setResourceUri clock resourceUri) h₂.name h₂.fields
  obtain ⟨s₄, hcomponent, h₄⟩ := h₃.set (fun r => { r with component := component })
    (fun t => t.setComponent clock component) h₃.name h₃.fields
  obtain ⟨mtime, asked, hset⟩ := StatusImpl.setState_eq clock s₄.impl .pending
  have hunknown : s₄.impl.state = .unknown := congrArg Fields.state h₄.fields
  rw [hunknown, validStateTransition_unknown_left] at hset
  have hpending : fieldsOf (s₄.impl.setState clock .pending).2 = .created := by
    rw [hset]
    exact congrArg (fun F : Fields D => { F with state := .pending }) h₄.fields
  have hkept : (s₄.impl.setState clock .pending).2.name = name := by
    rw [hset]
    exact h₄.name
  obtain ⟨s₅, hstate, h₅⟩ := h₄.set (fun r => { r with state := .pending })
    (fun t => (t.setState clock .pending).2) hkept hpending
  have hsetState : outcome (setState clock .pending) s₄ =
      (.ok (s₄.impl.setState clock .pending).1, s₅) := by
    rw [outcome_set] at hstate
    rw [outcome_setState, h₄.data, if_pos rfl, (Prod.mk.inj hstate).2]
  refine ⟨s₅, ?_, h₅.records, h₅.name, h₅.fields⟩
  rw [outcome_bind_ok hbase, setName, outcome_bind_ok hname, setOperation,
    outcome_bind_ok hoperation, setResourceUri, outcome_bind_ok huri, setComponent,
    outcome_bind_ok hcomponent, outcome_bind_ok hsetState]

/-- A setter that writes none of the fields. -/
theorem set_quiet (s : Session D) {f : TransientStatusData D → TransientStatusData D}
    {g : StatusImpl D → StatusImpl D} (hname : ∀ r, (f r).name = r.name)
    (hfields : ∀ r, (f r).toFields = r.toFields) (hg : ∀ t, fieldsOf (g t) = fieldsOf t) :
    ∃ s', outcome (set f g) s = (.ok (), s') ∧ Works s s' ∧
      (∀ j, (s'.records.heap j).toFields = (s.records.heap j).toFields) ∧
      fieldsOf s'.impl = fieldsOf s.impl := by
  refine ⟨_, outcome_set f g s, works_set s hname, fun j => ?_, ?_⟩
  · exact (toFields_super _ g j).trans (toFields_writeData hfields j)
  · rw [super_impl, writeData_impl, hg]

/-- Naming a record. -/
theorem setName_spec {s : Session D} {i : ℕ} (hdata : s.data = some i) (n : String) :
    ∃ s', outcome (setName clock n) s = (.ok (), s') ∧ s'.data = some i ∧
      (s'.records.heap i).name = n ∧ s'.records.next = s.records.next ∧
      s'.records.db = s.records.db ∧ (∀ j, j ≠ i → s'.records.heap j = s.records.heap j) ∧
      (s'.records.heap i).toFields = (s.records.heap i).toFields ∧
      fieldsOf s'.impl = fieldsOf s.impl := by
  have hwrite : s.writeData (fun r => { r with name := n }) =
      { s with records := s.records.write i fun r => { r with name := n } } := by
    rw [Session.writeData, hdata]
  obtain ⟨hkept, hnext, hdb, hnames, hothers⟩ :=
    works_super (s.writeData fun r => { r with name := n }) fun t => t.setName clock n
  rw [hwrite] at hkept hnext hdb hnames hothers
  refine ⟨_, outcome_set _ _ s, ?_, ?_, ?_, ?_, ?_, ?_, ?_⟩
  · rw [hwrite]
    exact hkept.trans hdata
  · rw [hwrite, hnames]
    simp [TransDB.write]
  · rw [hwrite, hnext]
    rfl
  · rw [hwrite, hdb]
    rfl
  · intro j hj
    have hne : s.data ≠ some j := fun h => hj (Option.some.inj (h.symm.trans hdata))
    rw [hwrite, hothers j hne]
    simp [TransDB.write, hj]
  · rw [toFields_super, hwrite]
    simp [TransDB.write]
  · rw [super_impl, writeData_impl]
    rfl

/-- The first state of a record that has none yet, through a handle that has it already. -/
theorem setState_spec {s : Session D} {i : ℕ} (hdata : s.data = some i)
    (hstored : (s.records.heap i).toFields = {}) (hcached : fieldsOf s.impl = .created) :
    ∃ b s', outcome (setState clock .pending) s = (.ok b, s') ∧ Works s s' ∧
      Synced s' i .created := by
  have hunknown : (s.records.heap i).state = .unknown := congrArg Fields.state hstored
  have hworks := works_set s (f := fun r => { r with state := .pending })
    (g := fun t => (t.setState clock .pending).2) fun _ => rfl
  refine ⟨(s.impl.setState clock .pending).1, _, ?_, hworks, hworks.data.trans hdata, ?_, ?_⟩
  · rw [outcome_setState, hdata]
    simp [hunknown]
  · obtain ⟨mtime, asked, hset⟩ := StatusImpl.setState_eq clock s.impl .pending
    have hpending : s.impl.state = .pending := congrArg Fields.state hcached
    rw [super_impl, writeData_impl, hset, hpending]
    exact congrArg (fun F : Fields D => { F with state := .pending }) hcached
  · rw [toFields_super, Session.writeData, hdata]
    simp only [TransDB.write, Function.update_self]
    exact congrArg (fun F : Fields D => { F with state := .pending }) hstored

/-- Meta data that are undefined can be copied. -/
theorem setMeta_spec {s : Session D} {i : ℕ} {F : Fields D} (h : Synced s i F) :
    ∃ s', outcome (setMeta clock .undef) s = (.ok (), s') ∧ Works s s' ∧
      Synced s' i { F with metaData := .undef } := by
  have hcopy : (Json.undef : Json D).copy = .ok .undef := copy_of_bounded (by simp [Bounded])
  have hset : ∀ t : StatusImpl D, t.setMeta clock .undef =
      .ok (StatusImpl.touch clock { t with metaData := .undef }) := by
    intro t
    rw [StatusImpl.setMeta, hcopy]
    rfl
  have hworks := works_set s (f := fun r => { r with metaData := .undef })
    (g := fun _ => StatusImpl.touch clock { s.impl with metaData := .undef }) fun _ => rfl
  refine ⟨_, ?_, hworks, h.metaData clock .undef⟩
  rw [outcome_setMeta, h.data]
  simp only [hcopy, outcome_trySuper, hset, writeData_impl]

/-- The steps of `insert` after the record was allocated. -/
theorem insert_spec {s : Session D} {i : ℕ} (hdata : s.data = some i)
    (hstored : (s.records.heap i).toFields = {}) (hcached : fieldsOf s.impl = .created) :
    ∃ s', outcome (do
        let s ← get
        setName clock s.impl.name
        setOperation clock s.impl.operation
        setResourceUri clock s.impl.resourceUri
        setComponent clock s.impl.component
        let _ ← setState clock s.impl.state
        setMeta clock s.impl.metaData) s = (.ok (), s') ∧
      Synced s' i .created ∧ (s'.records.heap i).name = s.impl.name ∧
      s'.records.next = s.records.next ∧ s'.records.db = s.records.db ∧
      ∀ j, j ≠ i → s'.records.heap j = s.records.heap j := by
  have hstate : s.impl.state = .pending := congrArg Fields.state hcached
  have hmeta : s.impl.metaData = .undef := congrArg Fields.metaData hcached
  rw [outcome_bind_ok (outcome_get s), hstate, hmeta]
  obtain ⟨s₁, h₁, hdata₁, hname₁, hnext₁, hdb₁, hothers₁, hstored₁, hcached₁⟩ :=
    setName_spec clock hdata s.impl.name
  obtain ⟨s₂, h₂, hworks₂, hstored₂, hcached₂⟩ := set_quiet s₁
    (f := fun r => { r with operation := s.impl.operation })
    (g := fun t => t.setOperation clock s.impl.operation)
    (fun _ => rfl) (fun _ => rfl) fun _ => rfl
  obtain ⟨s₃, h₃, hworks₃, hstored₃, hcached₃⟩ := set_quiet s₂
    (f := fun r => { r with resourceUri := s.impl.resourceUri })
    (g := fun t => t.setResourceUri clock s.impl.resourceUri)
    (fun _ => rfl) (fun _ => rfl) fun _ => rfl
  obtain ⟨s₄, h₄, hworks₄, hstored₄, hcached₄⟩ := set_quiet s₃
    (f := fun r => { r with component := s.impl.component })
    (g := fun t => t.setComponent clock s.impl.component)
    (fun _ => rfl) (fun _ => rfl) fun _ => rfl
  have hworks : Works s₁ s₄ := (hworks₂.trans hworks₃).trans hworks₄
  -- the record has no state yet, and then it has the same as the cache
  obtain ⟨b, s₅, h₅, hworks₅, hsynced₅⟩ := setState_spec clock (hworks.data.trans hdata₁)
    (by rw [hstored₄, hstored₃, hstored₂, hstored₁, hstored])
    (by rw [hcached₄, hcached₃, hcached₂, hcached₁, hcached])
  obtain ⟨s₆, h₆, hworks₆, hsynced₆⟩ := setMeta_spec clock hsynced₅
  have hall : Works s₁ s₆ := (hworks.trans hworks₅).trans hworks₆
  refine ⟨s₆, ?_, hsynced₆, ?_, ?_, ?_, ?_⟩
  · rw [outcome_bind_ok h₁, setOperation, outcome_bind_ok h₂, setResourceUri, outcome_bind_ok h₃,
      setComponent, outcome_bind_ok h₄, outcome_bind_ok h₅, h₆]
  · exact (hall.frame.name i).trans hname₁
  · exact hall.frame.next.trans hnext₁
  · exact hall.frame.db.trans hdb₁
  · intro j hj
    have hne : s₁.data ≠ some j := fun h => hj (Option.some.inj (h.symm.trans hdata₁))
    exact (hall.frame.others j hne).trans (hothers₁ j hj)

/-- A new status has a record of its own at the end of the queue, which has room for a
hundred. -/
theorem create_spec (baseUri name operation resourceUri component : String) (d : TransDB D) :
    ∃ s, outcome (create clock baseUri name operation resourceUri component) (fresh clock d) =
        (.ok (), s) ∧
      Synced s d.next .created ∧ (s.records.heap d.next).name = name ∧
      s.records.next = d.next + 1 ∧
      s.records.db = (if d.db.length = maxQueue then d.db.tail else d.db) ++ [d.next] ∧
      ∀ j, j ≠ d.next → s.records.heap j = d.heap j := by
  obtain ⟨s₀, hcreate, rfl, rfl, hfields₀⟩ := outcome_create clock baseUri name
    operation resourceUri component d
  rw [hcreate]
  unfold insert
  rw [outcome_bind_ok (outcome_modify _ s₀)]
  obtain ⟨s', hinsert, hsynced, hname, hnext, hdb, hothers⟩ := insert_spec clock
    (s := { impl := { s₀.impl with asked := s₀.impl.asked + 2 }
            data := some s₀.records.next
            records := { heap := Function.update s₀.records.heap s₀.records.next
                            { ctime := clock s₀.impl.asked, mtime := clock (s₀.impl.asked + 1) }
                         next := s₀.records.next + 1
                         db := (if s₀.records.db.length = maxQueue then s₀.records.db.tail
                            else s₀.records.db) ++ [s₀.records.next] } })
    rfl (by simp) hfields₀
  refine ⟨s', hinsert, hsynced, hname, hnext, hdb, fun j hj => ?_⟩
  rw [hothers j hj]
  exact Function.update_of_ne hj _ _

end Load

section Queue

/-- The queue holds the numbers from `lo` on, at most a hundred. -/
structure Ring (d : TransDB D) (lo : ℕ) : Prop where
  start : lo ≤ d.next
  size : d.next ≤ lo + maxQueue
  db : d.db = List.range' lo (d.next - lo)

theorem Ring.congr {d d' : TransDB D} {lo : ℕ} (h : Ring d lo) (hnext : d'.next = d.next)
    (hdb : d'.db = d.db) : Ring d' lo :=
  ⟨hnext ▸ h.start, hnext ▸ h.size, by rw [hdb, hnext]; exact h.db⟩

/-- One more record drops the oldest one from a full queue. -/
theorem Ring.push {d d' : TransDB D} {lo : ℕ} (h : Ring d lo) (hnext : d'.next = d.next + 1)
    (hdb : d'.db = (if d.db.length = maxQueue then d.db.tail else d.db) ++ [d.next]) :
    Ring d' (if d.next = lo + maxQueue then lo + 1 else lo) := by
  have hlength : d.db.length = d.next - lo := by rw [h.db, List.length_range']
  have hstart := h.start
  have hsize := h.size
  by_cases hfull : d.next = lo + maxQueue
  · rw [if_pos hfull]
    rw [if_pos (by omega)] at hdb
    refine ⟨by omega, by omega, ?_⟩
    have hlast : d.next = lo + 1 + (maxQueue - 1) := by rw [hfull, maxQueue]
    have htail : d.db.tail = List.range' (lo + 1) (maxQueue - 1) := by
      rw [h.db, hfull, Nat.add_sub_cancel_left]
      rfl
    have hcount : d'.next - (lo + 1) = maxQueue - 1 + 1 := by rw [hnext, hfull, maxQueue]; omega
    rw [hdb, htail, hcount, List.range'_1_concat, ← hlast]
  · rw [if_neg hfull]
    rw [if_neg (by omega)] at hdb
    refine ⟨by omega, by omega, ?_⟩
    have hcount : d'.next - lo = d.next - lo + 1 := by omega
    rw [hdb, h.db, hcount, List.range'_1_concat, Nat.add_sub_cancel' hstart]

/-- The search from the end of the queue. -/
theorem find?_reverse_range' (p : ℕ → Bool) (lo n j : ℕ) :
    (List.range' lo n).reverse.find? p = some j ↔
      lo ≤ j ∧ j < lo + n ∧ p j = true ∧ ∀ j', j < j' → j' < lo + n → p j' = false := by
  induction n with
  | zero => simp; omega
  | succ n ih =>
      rw [List.range'_1_concat, List.reverse_append, List.reverse_singleton,
        List.singleton_append, List.find?_cons]
      cases hp : p (lo + n) with
      | true =>
          simp only [Option.some.injEq]
          constructor
          · rintro rfl
            exact ⟨by omega, by omega, hp, fun j' h h' => by omega⟩
          · rintro ⟨-, hlt, -, hlast⟩
            by_contra hne
            have hfalse := hlast (lo + n) (by omega) (by omega)
            rw [hp] at hfalse
            cases hfalse
      | false =>
          rw [ih]
          constructor
          · rintro ⟨hlo, hlt, hj, hlast⟩
            refine ⟨hlo, by omega, hj, fun j' h h' => ?_⟩
            by_cases heq : j' = lo + n
            · rw [heq, hp]
            · exact hlast j' h (by omega)
          · rintro ⟨hlo, hlt, hj, hlast⟩
            have hne : j ≠ lo + n := by
              rintro rfl
              rw [hp] at hj
              cases hj
            exact ⟨hlo, by omega, hj, fun j' h h' => hlast j' h (by omega)⟩

/-- The record of the name that was made last. -/
theorem newest_iff {d : TransDB D} {lo : ℕ} (h : Ring d lo) (name : String) (j : ℕ) :
    d.newest name = some j ↔ lo ≤ j ∧ j < d.next ∧ (d.heap j).name = name ∧
      ∀ j', j < j' → j' < d.next → (d.heap j').name ≠ name := by
  have hend : lo + (d.next - lo) = d.next := Nat.add_sub_cancel' h.start
  rw [TransDB.newest, List.findRev?_eq_find?_reverse, h.db, find?_reverse_range', hend]
  simp

end Queue

section World

variable {clock : ℕ → ℕ → Int64}

/-- The setters keep the meta data of a size that can be copied. -/
theorem bounded_written {F : Fields D} (h : F.metaData.Bounded (2 ^ 32 - 1)) (op : Setter D) :
    (F.written op).metaData.Bounded (2 ^ 32 - 1) := by
  have hcopied : ∀ {j m : Json D}, j.copy = .ok m → j.Bounded (2 ^ 32 - 1) ∧ m = j := by
    intro j m hcopy
    obtain ⟨hbounded, -⟩ | ⟨-, hcopy'⟩ := copy_cases j
    · exact ⟨hbounded, copy_eq hcopy⟩
    · rw [hcopy'] at hcopy
      cases hcopy
  have hassigned : ∀ {key : String} {value m : Json D} {o : List (String × Json D)},
      value.copy = .ok m → BoundedMembers (2 ^ 32 - 1) o →
      (Json.object (Assoc.assign key m o)).Bounded (2 ^ 32 - 1) := by
    intro key value m o hcopy ho
    obtain ⟨hvalue, rfl⟩ := hcopied hcopy
    rw [Bounded, boundedMembers_iff]
    intro e he
    obtain rfl | he := Assoc.mem_of_mem_assign he
    · exact hvalue
    · exact (boundedMembers_iff o).mp ho e he
  cases op with
  | metaKey key value =>
      rw [Fields.written]
      cases hassign : assignMember key value F.metaData with
      | error e => exact h
      | ok m =>
          unfold assignMember at hassign
          split at hassign
          · rename_i o ho
            obtain ⟨m', hcopy, hm⟩ := bind_eq_ok.mp hassign
            rw [ho, Bounded] at h
            cases hm
            exact hassigned hcopy h
          · obtain ⟨m', hcopy, hm⟩ := bind_eq_ok.mp hassign
            cases hm
            exact hassigned hcopy (by simp [BoundedMembers])
          · cases hassign
  | metaData j =>
      rw [Fields.written]
      cases hcopy : j.copy with
      | error e => exact h
      | ok m =>
          obtain ⟨hbounded, rfl⟩ := hcopied hcopy
          exact hbounded
  | state st =>
      rw [Fields.written]
      split
      · exact h
      · exact h
  | _ => exact h

/-- The handle of a status that was created, and its record, when `n` more were created. -/
structure Held (w : World D) (k i n : ℕ) (name : String) (F : Fields D) : Prop where
  handle : ∃ t, w.handles[k]? = some t ∧ t.data = some i ∧ fieldsOf t.impl = F
  stored : (w.records.heap i).toFields = F
  name : (w.records.heap i).name = name
  next : w.records.next = i + 1 + n
  ring : ∃ lo, Ring w.records lo ∧ lo ≤ i
  bounded : F.metaData.Bounded (2 ^ 32 - 1)

/-- What is to be in a status after one more action. -/
def Fields.after (F : Fields D) (k : ℕ) : Action D → Fields D
  | .set k' op => if k' = k then F.written op else F
  | _ => F

variable (clock) in
/-- The effect of making a handle. -/
theorem step_create (w : World D) (baseUri name operation resourceUri component : String) :
    ∃ s, w.step clock (.create baseUri name operation resourceUri component) =
        { records := s.records, handles := w.handles ++ [s.toTransientStatusImpl] } ∧
      Synced s w.records.next .created ∧ (s.records.heap w.records.next).name = name ∧
      s.records.next = w.records.next + 1 ∧
      s.records.db = (if w.records.db.length = maxQueue then w.records.db.tail
        else w.records.db) ++ [w.records.next] ∧
      ∀ j, j ≠ w.records.next → s.records.heap j = w.records.heap j := by
  obtain ⟨s, hcreate, hspec⟩ := create_spec (clock w.handles.length) baseUri name operation
    resourceUri component w.records
  refine ⟨s, ?_, hspec⟩
  rw [World.step, World.make, hcreate]

variable (clock) in
theorem step_fetch (w : World D) (baseUri name : String) :
    ∃ d handles, w.step clock (.fetch baseUri name) = { records := d, handles := handles } ∧
      Untouched w.records d ∧ ∃ more, handles = w.handles ++ more := by
  have hrecords := untouched_fetch (clock w.handles.length) baseUri name w.records
  rw [World.step, World.make]
  cases hfetch : outcome (fetch (clock w.handles.length) baseUri name)
      (fresh (clock w.handles.length) w.records) with
  | mk r s =>
      rw [hfetch] at hrecords
      cases r with
      | ok u => exact ⟨_, _, rfl, hrecords, _, rfl⟩
      | error e => exact ⟨_, _, rfl, hrecords, [], (List.append_nil _).symm⟩

variable (clock) in
/-- The effect of a setter on the records. -/
theorem frame_step_set (w : World D) {k : ℕ} {t : TransientStatusImpl D} (op : Setter D)
    (ht : w.handles[k]? = some t) :
    Frame t.data w.records (w.step clock (.set k op)).records := by
  rw [World.step, World.use, ht]
  exact (works_call op { t with records := w.records }).frame

variable (clock) in
/-- The queue of every process is in order. -/
theorem exists_ring (as : List (Action D)) :
    ∃ lo, Ring ((({} : World D).run clock as).records) lo := by
  have hrun : ∀ (as : List (Action D)) (w : World D), (∃ lo, Ring w.records lo) →
      ∃ lo, Ring (w.run clock as).records lo := by
    intro as
    induction as with
    | nil => exact fun w h => h
    | cons a as ih =>
        rintro w ⟨lo, hring⟩
        refine ih (w.step clock a) ?_
        cases a with
        | create baseUri name operation resourceUri component =>
            obtain ⟨s, hstep, -, -, hnext, hdb, -⟩ := step_create clock w baseUri name
              operation resourceUri component
            rw [hstep]
            exact ⟨_, hring.push hnext hdb⟩
        | fetch baseUri name =>
            obtain ⟨d, handles, hstep, hd, -⟩ := step_fetch clock w baseUri name
            rw [hstep]
            exact ⟨lo, hring.congr hd.next hd.db⟩
        | set k op =>
            cases ht : w.handles[k]? with
            | none =>
                rw [World.step, World.use, ht]
                exact ⟨lo, hring⟩
            | some t =>
                have hframe := frame_step_set clock w op ht
                exact ⟨lo, hring.congr hframe.next hframe.db⟩
  exact hrun as {} ⟨0, Nat.le_refl 0, Nat.zero_le _, rfl⟩

variable {w : World D} {k i n : ℕ} {name : String} {F : Fields D}

/-- One more action. A hundred more statuses would push the record out of the queue. -/
theorem Held.step (h : Held w k i n name F) (a : Action D) (hn : n + creations [a] < maxQueue)
    (hsole : ∀ k' op, a = .set k' op → k' ≠ k → ∀ t, w.handles[k']? = some t →
      t.data ≠ some i) :
    Held (w.step clock a) k i (n + creations [a]) name (F.after k a) := by
  obtain ⟨⟨t, ht, hdata, hcached⟩, hstored, hname, hnext, ⟨lo, hring, hlo⟩, hbounded⟩ := h
  cases a with
  | create baseUri name' operation resourceUri component =>
      obtain ⟨s, hstep, -, -, hnext', hdb, hothers⟩ := step_create clock w baseUri
        name' operation resourceUri component
      have hne : i ≠ w.records.next := by omega
      rw [hstep]
      refine ⟨⟨t, ?_, hdata, hcached⟩, ?_, ?_, ?_, ⟨_, hring.push hnext' hdb, ?_⟩, hbounded⟩
      · rw [List.getElem?_append_left (List.getElem?_eq_some_iff.mp ht).1]
        exact ht
      · rw [hothers i hne]
        exact hstored
      · rw [hothers i hne]
        exact hname
      · rw [hnext', hnext]
        rfl
      · have hless : n + 1 < maxQueue := hn
        rw [maxQueue] at hless ⊢
        split
        · omega
        · exact hlo
  | fetch baseUri name' =>
      obtain ⟨d, handles, hstep, hd, more, rfl⟩ := step_fetch clock w baseUri name'
      rw [hstep]
      refine ⟨⟨t, ?_, hdata, hcached⟩, (hd.fields i).trans hstored, (hd.name i).trans hname,
        hd.next.trans hnext, ⟨lo, hring.congr hd.next hd.db, hlo⟩, hbounded⟩
      rw [List.getElem?_append_left (List.getElem?_eq_some_iff.mp ht).1]
      exact ht
  | set k' op =>
      by_cases hk : k' = k
      · subst hk
        have hframe := frame_step_set clock w op ht
        have hsynced : Synced { t with records := w.records } i F := ⟨hdata, hcached, hstored⟩
        have hafter : F.after k' (.set k' op) = F.written op := if_pos rfl
        obtain ⟨hdata', hcached', hstored'⟩ := hsynced.call (clock k') op
        rw [hafter]
        refine ⟨⟨_, ?_, hdata', hcached'⟩, ?_, (hframe.name i).trans hname,
          hframe.next.trans hnext, ⟨lo, hring.congr hframe.next hframe.db, hlo⟩,
          bounded_written hbounded op⟩
        · rw [World.step, World.use, ht]
          exact List.getElem?_set_self (List.getElem?_eq_some_iff.mp ht).1
        · rw [World.step, World.use, ht]
          exact hstored'
      · have hafter : F.after k (.set k' op) = F := if_neg hk
        rw [hafter]
        cases ht' : w.handles[k']? with
        | none =>
            rw [World.step, World.use, ht']
            exact ⟨⟨t, ht, hdata, hcached⟩, hstored, hname, hnext, ⟨lo, hring, hlo⟩, hbounded⟩
        | some t' =>
            have hframe := frame_step_set clock w op ht'
            have hother := hframe.others i (hsole k' op rfl hk t' ht')
            refine ⟨⟨t, ?_, hdata, hcached⟩, ?_, ?_, hframe.next.trans hnext,
              ⟨lo, hring.congr hframe.next hframe.db, hlo⟩, hbounded⟩
            · rw [World.step, World.use, ht', List.getElem?_set_ne hk]
              exact ht
            · rw [hother]
              exact hstored
            · rw [hother]
              exact hname

/-- What a run does to the status. -/
theorem Held.run (h : Held w k i n name F) (as : List (Action D))
    (hn : n + creations as < maxQueue) (hsole : OneHandle clock k i w as) :
    Held (w.run clock as) k i (n + creations as) name
      (as.foldl (fun F a => F.after k a) F) := by
  induction as generalizing w n F with
  | nil => exact h
  | cons a as ih =>
      have hcount : creations (a :: as) = creations [a] + creations as := by
        cases a with
        | create baseUri name operation resourceUri component =>
            simp only [creations]
            omega
        | fetch baseUri name => simp [creations]
        | set k op => simp [creations]
      rw [hcount, ← Nat.add_assoc] at hn ⊢
      exact ih (h.step a (Nat.lt_of_le_of_lt (Nat.le_add_right _ _) hn) hsole.1) hn hsole.2

variable (clock) in
/-- The status that was just created. -/
theorem held_create {lo : ℕ} (hring : Ring w.records lo)
    (baseUri name operation resourceUri component : String) :
    Held (w.step clock (.create baseUri name operation resourceUri component)) w.handles.length
      w.records.next 0 name .created := by
  obtain ⟨s, hstep, ⟨hdata, hcached, hstored⟩, hname, hnext, hdb, -⟩ := step_create
    clock w baseUri name operation resourceUri component
  have hstart := hring.start
  have hsize := hring.size
  rw [hstep]
  refine ⟨⟨_, ?_, hdata, hcached⟩, hstored, hname, hnext, ⟨_, hring.push hnext hdb, ?_⟩, ?_⟩
  · simp
  · rw [maxQueue] at *
    split
    · omega
    · exact hstart
  · simp [Fields.created, Bounded]

end World

section ReadBack

/-- A status that was created later has the same name, and it is the last one that has. -/
def Shadows (d : TransDB D) (i j : ℕ) : Prop :=
  i < j ∧ j < d.next ∧ (d.heap j).name = (d.heap i).name ∧
    ∀ j', j < j' → j' < d.next → (d.heap j').name ≠ (d.heap i).name

/-- A new handle for the name has these fields. -/
def ReadsBack (clock : ℕ → Int64) (d : TransDB D) (baseUri name : String) (F : Fields D) : Prop :=
  ∃ s, outcome (fetch clock baseUri name) (fresh clock d) = (.ok (), s) ∧ fieldsOf s.impl = F

/-- `JobManager::retry` adds one to the failures of the record. -/
def Advances (clock : ℕ → Int64) (d : TransDB D) (baseUri name : String) (i : ℕ) : Prop :=
  ((outcome (retry clock baseUri name) (fresh clock d)).2.records.heap i).failures =
    (d.heap i).failures + 1

variable {w : World D} {k i n : ℕ} {name : String} {F : Fields D}

/-- The record that is found for the name is the status itself or the one that shadows it. -/
theorem Held.newest_cases (h : Held w k i n name F) :
    w.records.newest name = some i ∧ (∀ j, ¬ Shadows w.records i j) ∨
      ∃ j, w.records.newest name = some j ∧ Shadows w.records i j ∧
        ∀ j', Shadows w.records i j' → j' = j := by
  obtain ⟨lo, hring, hlo⟩ := h.ring
  have hnext := h.next
  cases hfound : w.records.newest name with
  | none =>
      rw [TransDB.newest, List.findRev?_eq_find?_reverse, List.find?_eq_none] at hfound
      have hmem : i ∈ w.records.db.reverse := by
        rw [hring.db, List.mem_reverse, List.mem_range'_1]
        omega
      exact absurd h.name (by simpa using hfound i hmem)
  | some j =>
      obtain ⟨-, hlt, hj, hlast⟩ := (newest_iff hring name j).mp hfound
      obtain hless | heq | hgreater := Nat.lt_trichotomy i j
      · refine .inr ⟨j, rfl, ⟨hless, hlt, hj.trans h.name.symm, ?_⟩, ?_⟩
        · rw [h.name]
          exact hlast
        · rintro j' ⟨-, hlt', hj', hlast'⟩
          rw [h.name] at hj' hlast'
          by_contra hne
          obtain hless' | hgreater' := Nat.lt_or_gt_of_ne hne
          · exact hlast' j hless' hlt hj
          · exact hlast j' hgreater' hlt' hj'
      · subst heq
        refine .inl ⟨rfl, ?_⟩
        rintro j' ⟨hless', hlt', hj', -⟩
        rw [h.name] at hj'
        exact hlast j' hless' hlt' hj'
      · exact absurd h.name (hlast i hgreater (by omega))

variable (clock : ℕ → Int64) (baseUri : String)

theorem Held.readsBack_iff (h : Held w k i n name F) :
    ReadsBack clock w.records baseUri name F ↔ F.failures = 0 ∧
      ∀ j, Shadows w.records i j → { (w.records.heap j).toFields with failures := 0 } = F := by
  -- the record that is found decides
  have hread : ∀ j, w.records.newest name = some j →
      (ReadsBack clock w.records baseUri name F ↔
        { (w.records.heap j).toFields with failures := 0 } = F) := by
    intro j hfound
    obtain ⟨s, -, hfetch⟩ := fetch_spec clock baseUri name w.records hfound
    unfold ReadsBack
    cases hcopy : (w.records.heap j).metaData.copy with
    | error e =>
        rw [hcopy] at hfetch
        have hne : { (w.records.heap j).toFields with failures := 0 } ≠ F := by
          rintro rfl
          rw [copy_of_bounded h.bounded] at hcopy
          cases hcopy
        simp [hfetch, hne]
    | ok m =>
        rw [hcopy] at hfetch
        obtain ⟨hfetch, -, hfields⟩ := hfetch
        simp [hfetch, hfields]
  obtain ⟨hfound, hnone⟩ | ⟨j, hfound, hj, hunique⟩ := h.newest_cases
  · rw [hread i hfound, h.stored]
    constructor
    · intro heq
      exact ⟨(congrArg Fields.failures heq).symm, fun j hj => absurd hj (hnone j)⟩
    · rintro ⟨hfailures, -⟩
      rw [← hfailures]
  · rw [hread j hfound]
    constructor
    · intro heq
      refine ⟨(congrArg Fields.failures heq).symm, fun j' hj' => ?_⟩
      rw [hunique j' hj']
      exact heq
    · exact fun hall => hall.2 j hj

theorem failures_setFailures {s : Session D} {j : ℕ} (hdata : s.data = some j) (count : UInt32)
    (i : ℕ) : ((outcome (setFailures count) s).2.records.heap i).failures =
      if i = j then count else (s.records.heap i).failures := by
  have hset : (outcome (setFailures count) s).2 =
      (s.writeData fun r => { r with failures := count }).super
        fun t => { t with failures := count } := rfl
  rw [hset, toFields_super, Session.writeData, hdata]
  by_cases hij : i = j
  · subst hij
    simp [TransDB.write]
  · simp [TransDB.write, hij]

/-- A retry sets the counter of the record that it finds to 1, whatever it was. -/
theorem failures_retry (d : TransDB D) {j : ℕ} (hfound : d.newest name = some j) :
    (∀ i, i ≠ j →
      ((outcome (retry clock baseUri name) (fresh clock d)).2.records.heap i).failures =
        (d.heap i).failures) ∧
      ∀ m, (d.heap j).metaData.copy = .ok m →
        ((outcome (retry clock baseUri name) (fresh clock d)).2.records.heap j).failures = 1 := by
  obtain ⟨s, hrecords, hfetch⟩ := fetch_spec clock baseUri name d hfound
  have hkept : ∀ i, (s.records.heap i).failures = (d.heap i).failures := fun i =>
    congrArg Fields.failures (hrecords.fields i)
  unfold retry
  cases hcopy : (d.heap j).metaData.copy with
  | error e =>
      rw [hcopy] at hfetch
      rw [outcome_bind_error hfetch]
      exact ⟨fun i _ => hkept i, nofun⟩
  | ok m =>
      rw [hcopy] at hfetch
      obtain ⟨hfetch, hdata, hfields⟩ := hfetch
      have hzero : s.impl.failures = 0 := congrArg Fields.failures hfields
      have hret : ∀ count : UInt32, (outcome (do setFailures count; return count) s).2 =
          (outcome (setFailures count) s).2 := fun _ => rfl
      rw [outcome_bind_ok hfetch, outcome_bind_ok (outcome_get s), hret, hzero]
      refine ⟨fun i hi => ?_, fun _ _ => ?_⟩
      · rw [failures_setFailures hdata, if_neg hi]
        exact hkept i
      · rw [failures_setFailures hdata, if_pos rfl]
        rfl

theorem Held.advances_iff (h : Held w k i n name F) :
    Advances clock w.records baseUri name i ↔
      F.failures = 0 ∧ ∀ j, ¬ Shadows w.records i j := by
  have hstored : (w.records.heap i).failures = F.failures := by rw [← h.stored]
  have hbounded := h.bounded
  -- a counter that is not written does not advance
  have hstays : F.failures ≠ F.failures + 1 := by
    intro heq
    have hnat := congrArg UInt32.toNat heq
    rw [UInt32.toNat_add] at hnat
    have hone : (1 : UInt32).toNat = 1 := rfl
    have hlt := F.failures.toNat_lt
    omega
  have hone : 1 = F.failures + 1 ↔ F.failures = 0 := by
    constructor
    · intro heq
      have hnat := congrArg UInt32.toNat heq
      rw [UInt32.toNat_add] at hnat
      have hone : (1 : UInt32).toNat = 1 := rfl
      have hlt := F.failures.toNat_lt
      refine UInt32.toNat_inj.mp ?_
      rw [UInt32.toNat_zero]
      omega
    · intro heq
      rw [heq]
      rfl
  unfold Advances
  rw [hstored]
  obtain ⟨hfound, hnone⟩ | ⟨j, hfound, hj, -⟩ := h.newest_cases
  · have hcopy : (w.records.heap i).metaData.copy = .ok F.metaData := by
      rw [← h.stored] at hbounded ⊢
      exact copy_of_bounded hbounded
    rw [(failures_retry clock baseUri w.records hfound).2 _ hcopy, hone]
    exact ⟨fun heq => ⟨heq, hnone⟩, fun hall => hall.1⟩
  · rw [(failures_retry clock baseUri w.records hfound).1 i (Nat.ne_of_lt hj.1), hstored]
    exact iff_of_false hstays fun hall => hall.2 j hj

variable (clocks : ℕ → ℕ → Int64) (before after : List (Action D))
  (createUri name operation resourceUri component : String)

/-- Transient statuses are created, fetched and changed in any order. One is created, its
setters are called through one handle, and fewer than a hundred more are created. Then a new
handle for its name has the fields that were last written, exactly when the failures that
were last written are 0 and a status of the same name that was created later, if there is
one, has the same fields; and a retry advances the counter exactly when it was 0 and there is
no such status. -/
theorem reads_back_iff
    (hn : creations after < maxQueue)
    (hsole : OneHandle clocks (({} : World D).run clocks before).handles.length
      (({} : World D).run clocks before).records.next
      ((({} : World D).run clocks before).step clocks
        (.create createUri name operation resourceUri component)) after) :
    let start := ({} : World D).run clocks before
    let k := start.handles.length
    let i := start.records.next
    let d := ((start.step clocks
      (.create createUri name operation resourceUri component)).run clocks after).records
    let F := lastWritten k after
    (ReadsBack clock d baseUri name F ↔
      F.failures = 0 ∧ ∀ j, Shadows d i j → { (d.heap j).toFields with failures := 0 } = F) ∧
    (Advances clock d baseUri name i ↔ F.failures = 0 ∧ ∀ j, ¬ Shadows d i j) := by
  obtain ⟨lo, hring⟩ := exists_ring clocks before
  have hheld := (held_create clocks hring createUri name operation resourceUri
    component).run after (by rw [Nat.zero_add]; exact hn) hsole
  exact ⟨hheld.readsBack_iff clock baseUri, hheld.advances_iff clock baseUri⟩

end ReadBack

/-- A status whose progress and messages were written. -/
def progressed : List (Action ℤ) :=
  [.set 0 (.progress 40), .set 0 (.addMessage "half of it")]

theorem reads_back_progressed :
    ReadsBack (fun _ => 0) ((({} : World ℤ).step (fun _ _ => 0)
      (.create "" "st-1" "install" "" "")).run (fun _ _ => 0) progressed).records "" "st-1"
      (lastWritten 0 progressed) := by
  have hiff := reads_back_iff (D := ℤ) (fun _ => 0) "" (fun _ _ => 0) [] progressed "" "st-1"
    "install" "" "" (by decide) ⟨by rintro k' op ⟨⟩ h; exact absurd rfl h,
      by rintro k' op ⟨⟩ h; exact absurd rfl h, trivial⟩
  refine hiff.1.2 ⟨rfl, ?_⟩
  rintro j ⟨hless, hlt, -⟩
  have hnext : ((({} : World ℤ).step (fun _ _ => 0)
      (.create "" "st-1" "install" "" "")).run (fun _ _ => 0) progressed).records.next = 1 := rfl
  exact absurd (Nat.lt_of_lt_of_eq hlt hnext) (by omega)

/-- The failures that were written are not read back, so that a retry writes the same number
again. -/
theorem not_reads_back : ¬ ∀ (before after : List (Action ℤ)) (name : String),
    let start := ({} : World ℤ).run (fun _ _ => 0) before
    let d := ((start.step (fun _ _ => 0) (.create "" name "" "" "")).run (fun _ _ => 0)
      after).records
    creations after < maxQueue →
    OneHandle (fun _ _ => 0) start.handles.length start.records.next
      (start.step (fun _ _ => 0) (.create "" name "" "" "")) after →
    ReadsBack (fun _ => 0) d "" name (lastWritten start.handles.length after) ∧
      Advances (fun _ => 0) d "" name start.records.next := by
  intro h
  have hring : Ring ({} : World ℤ).records 0 := ⟨Nat.le_refl 0, Nat.zero_le _, rfl⟩
  have hsole : OneHandle (fun _ _ => 0) 0 0 ((({} : World ℤ)).step (fun _ _ => 0)
      (.create "" "st-1" "" "" "")) [.set 0 (.failures 1)] :=
    ⟨by rintro k' op ⟨⟩ hne; exact absurd rfl hne, trivial⟩
  have hheld := (held_create (fun _ _ => 0) hring "" "st-1" "" "" "").run
    [.set 0 (.failures 1)] (by decide) hsole
  have hread := (h [] [.set 0 (.failures 1)] "st-1" (by decide) hsole).1
  have hzero := ((hheld.readsBack_iff (fun _ => 0) "").mp hread).1
  exact absurd hzero (by decide)

end TransientStatus

end Gearbox
