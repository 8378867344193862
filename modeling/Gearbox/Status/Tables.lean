import Gearbox.Refinement.Retry
import Gearbox.Status.Resource

/-!
# The tables of the SQL status implementation

An `SQLStatusImpl` keeps the fields of the base class as a cache of its rows in the tables
`status`, `messages`, `child_uri` and `status_meta`. The rows of a table are in the order
of their ids, which the database counts up. A statement takes effect and succeeds, or it
fails without effect; `Server` says which statements fail. Writing statements and queries
are counted apart.

Every statement is run in a loop that catches all exceptions and tries again, so that the
operations are families of programs, one for each bound on the rounds of their loops. The
state of a row is its column text (see `State`).
-/

namespace Gearbox

namespace SqlStatus

open Json Refinement Status

variable {D : Type}

/-- A row of the table `status`. -/
structure StatusRow where
  name : String
  operation : String
  component : String
  progress : UInt32
  code : Int32
  resourceUri : String
  parentUri : String
  ctime : Int64
  mtime : Int64
  ytime : Int64
  state : State
  failures : UInt32
  concurrency : UInt32 := 0
  deriving DecidableEq

structure MessageRow where
  statusName : String
  message : String
  deriving DecidableEq

structure ChildRow where
  statusName : String
  uri : String
  childId : String
  deriving DecidableEq

structure MetaRow where
  statusName : String
  name : String
  value : Text

structure Tables where
  status : List StatusRow := []
  messages : List MessageRow := []
  childUri : List ChildRow := []
  statusMeta : List MetaRow := []

/-- `SQLStatusImpl`: the fields of the base class and the flags of the lazy loading. -/
structure SqlStatusImpl (D : Type) extends StatusImpl D where
  messagesLoaded : Bool := false
  childrenLoaded : Bool := false
  metaLoaded : Bool := false
  loaded : Bool := false
  shouldLoad : Bool := false

/-- One handle and the database, with the numbers of the statements so far. -/
structure Session (D : Type) where
  tables : Tables
  impl : SqlStatusImpl D
  writes : ℕ := 0
  queries : ℕ := 0

/-- Which of the writing statements and which of the queries fail. -/
structure Server where
  writeFails : ℕ → Bool
  queryFails : ℕ → Bool

/-- A database that answers every statement from its content. -/
def Server.sound : Server where
  writeFails _ := false
  queryFails _ := false

/-- There are finitely many failures in a row. -/
structure Server.Recovers (db : Server) : Prop where
  write : ∀ n, ∃ m, n ≤ m ∧ db.writeFails m = false
  query : ∀ n, ∃ m, n ≤ m ∧ db.queryFails m = false

/-- A program over one handle and the database. -/
abbrev SqlM (D : Type) : Type → Type :=
  Code (Session D) Failure

/-- The exception of a statement that failed. -/
def sociError : Failure :=
  .std "soci_error"

/-- The loop around the statements of an operation. -/
def forever {α : Type} (m : SqlM D α) : ℕ → SqlM D α :=
  retry Failure.isException .diverges m

section Statements

variable (db : Server)

/-- One `INSERT`, `REPLACE`, `UPDATE` or `DELETE`, which may violate a constraint. -/
def statement (f : Tables → Except Failure Tables) : SqlM D Unit :=
  Code.mk fun s =>
    if db.writeFails s.writes then
      (.error sociError, { s with writes := s.writes + 1 })
    else
      match f s.tables with
      | .ok t => (.ok (), { s with tables := t, writes := s.writes + 1 })
      | .error e => (.error e, { s with writes := s.writes + 1 })

/-- One `SELECT`. -/
def query {α : Type} (f : Tables → α) : SqlM D α :=
  Code.mk fun s =>
    if db.queryFails s.queries then
      (.error sociError, { s with queries := s.queries + 1 })
    else
      (.ok (f s.tables), { s with queries := s.queries + 1 })

end Statements

namespace Tables

variable (t : Tables)

/-- `INSERT INTO status`; the name is the primary key. -/
def insertStatus (row : StatusRow) : Except Failure Tables :=
  if row.name ∈ t.status.map StatusRow.name then .error sociError
  else .ok { t with status := t.status ++ [row] }

/-- `UPDATE status SET ... WHERE name = :name` -/
def updateStatus (name : String) (f : StatusRow → StatusRow) : Tables :=
  { t with status := t.status.map fun row => if row.name = name then f row else row }

/-- `UPDATE status SET mtime = :mtime WHERE name = :name` -/
def updateMtime (name : String) (mtime : Int64) : Tables :=
  t.updateStatus name fun row => { row with mtime := mtime }

/-- `SELECT ... FROM status WHERE name = :name` -/
def statusOf (name : String) : Option StatusRow :=
  t.status.find? fun row => row.name = name

/-- `INSERT INTO messages` -/
def insertMessage (row : MessageRow) : Tables :=
  { t with messages := t.messages ++ [row] }

/-- `SELECT message FROM messages WHERE status_name = :name ORDER BY id` -/
def messagesOf (name : String) : List String :=
  (t.messages.filter fun row => row.statusName = name).map MessageRow.message

/-- `INSERT INTO child_uri` -/
def insertChild (row : ChildRow) : Tables :=
  { t with childUri := t.childUri ++ [row] }

/-- `SELECT uri FROM child_uri WHERE status_name = :name ORDER BY id` -/
def childrenOf (name : String) : List String :=
  (t.childUri.filter fun row => row.statusName = name).map ChildRow.uri

/-- `REPLACE INTO status_meta`; the pair of the names is unique. -/
def replaceMeta (row : MetaRow) : Tables :=
  { t with statusMeta := (t.statusMeta.filter fun row' =>
      ¬ (row'.statusName = row.statusName ∧ row'.name = row.name)) ++ [row] }

/-- `DELETE FROM status_meta WHERE status_name = :status_name` -/
def deleteMeta (name : String) : Tables :=
  { t with statusMeta := t.statusMeta.filter fun row => row.statusName ≠ name }

/-- `SELECT name, value FROM status_meta WHERE status_name = :name` -/
def metaOf (name : String) : List (String × Text) :=
  (t.statusMeta.filter fun row => row.statusName = name).map fun row => (row.name, row.value)

end Tables

section Base

variable (clock : ℕ → Int64)

/-- `StatusImpl::meta( key, value )` -/
def setMetaKey (s : StatusImpl D) (key : String) (value : Json D) :
    Except Failure (StatusImpl D) :=
  let assigned (o : List (String × Json D)) : Except Failure (StatusImpl D) := do
    let value ← value.copy
    return StatusImpl.touch clock { s with metaData := .object (Assoc.assign key value o) }
  match s.metaData with
  | .object o => assigned o
  | .undef => assigned []
  | j => throw (.json ("cannot access object key \"" ++ key ++ "\" on type "
      ++ j.type.typeToName))

/-- The setters that `really_load` calls for the columns of a row. The columns are read as
`int`. -/
def assignRow (s : StatusImpl D) (row : StatusRow) : StatusImpl D :=
  let s := s.setName clock row.name
  let s := s.setOperation clock row.operation
  let s := s.setComponent clock row.component
  let s := s.setProgress clock row.progress
  let s := { s with code := row.code }
  let s := s.setResourceUri clock row.resourceUri
  let s := s.setParentUri clock row.parentUri
  let s := { s with ctime := row.ctime.toInt32.toInt64 }
  let s := { s with ytime := row.ytime.toInt32.toInt64 }
  let s := (s.setState clock row.state).2
  { s with failures := row.failures, mtime := row.mtime.toInt32.toInt64 }

/-- Changes the fields of the base class. -/
def Session.super (s : Session D) (f : StatusImpl D → StatusImpl D) : Session D :=
  { s with impl := { s.impl with toStatusImpl := f s.impl.toStatusImpl } }

/-- A call of a method of the base class that does not throw. -/
def super (f : StatusImpl D → StatusImpl D) : SqlM D Unit :=
  modify fun s => s.super f

/-- A call of a method of the base class that may throw. -/
def trySuper (f : StatusImpl D → Except Failure (StatusImpl D)) : SqlM D Unit := do
  let s ← get
  let base ← liftM (f s.impl.toStatusImpl)
  super fun _ => base

end Base

/-- The text of an `Error`. -/
def errorText (name : String) (code : ℤ) (msg : String) : String :=
  (if msg.startsWith name then "" else name ++ " [" ++ toString code ++ "]: ") ++
    if msg = "" then "Unknown Error" else msg

section Operations

variable (db : Server) (clock : ℕ → Int64) (env : Env D)

/-- The `UPDATE` of `mtime` that ends most operations. -/
def touchRow : SqlM D Unit := do
  let s ← get
  statement db fun t => .ok (t.updateMtime s.impl.name s.impl.mtime)

/-- `SQLStatusImpl::really_load` -/
def reallyLoad (n : ℕ) : SqlM D Unit := do
  let s ← get
  let found ← forever (do
    match ← query db fun t => t.statusOf s.impl.name with
    | none => return false
    | some row =>
        super fun base => assignRow clock base row
        modify fun s => { s with impl := { s.impl with loaded := true, shouldLoad := true } }
        return true) n
  -- `ERR_NOT_FOUND` is thrown again
  if !found then
    throw (.std (errorText "NOT_FOUND" 404 ("status " ++ s.impl.name ++ " not found")))

/-- One round of the loop of `messages()`. -/
def loadMessages : SqlM D Unit := do
  super fun base => { base with messages := [] }
  let s ← get
  let rows ← query db fun t => t.messagesOf s.impl.name
  super fun base =>
    { rows.foldl (fun base text => base.addMessage clock text) base with mtime := base.mtime }
  modify fun s => { s with impl := { s.impl with messagesLoaded := true } }

/-- `SQLStatusImpl::messages` -/
def messages (n : ℕ) : SqlM D (List String) := do
  if !(← get).impl.messagesLoaded then
    forever (loadMessages db clock) n
  return (← get).impl.messages

/-- One round of the loop of `add_message`. -/
def storeMessage (message : String) : SqlM D Unit := do
  let s ← get
  statement db fun t => .ok (t.insertMessage ⟨s.impl.name, message⟩)
  touchRow db

/-- `SQLStatusImpl::add_message`; it loads the messages if they are loaded. -/
def addMessage (message : String) (n : ℕ) : SqlM D Unit := do
  if (← get).impl.messagesLoaded then
    let _ ← messages db clock n
  super fun base => base.addMessage clock message
  forever (storeMessage db message) n

/-- One round of the loop of `children()`. -/
def loadChildren : SqlM D Unit := do
  super fun base => { base with children := [] }
  let s ← get
  let rows ← query db fun t => t.childrenOf s.impl.name
  super fun base =>
    { rows.foldl (fun base uri => base.addChild clock uri) base with mtime := base.mtime }
  modify fun s => { s with impl := { s.impl with childrenLoaded := true } }

/-- `SQLStatusImpl::children` -/
def children (n : ℕ) : SqlM D (List String) := do
  if !(← get).impl.childrenLoaded then
    forever (loadChildren db clock) n
  return (← get).impl.children

/-- One round of the loop of `add_child`. -/
def storeChild (childUri : String) : SqlM D Unit := do
  let uri ← liftM (Uri.parse childUri.toList)
  let s ← get
  statement db fun t => .ok (t.insertChild ⟨s.impl.name, childUri, String.ofList uri.leaf⟩)
  touchRow db

/-- `SQLStatusImpl::add_child` -/
def addChild (childUri : String) (n : ℕ) : SqlM D Unit := do
  if !(← get).impl.childrenLoaded then
    let _ ← children db clock n
  super fun base => base.addChild clock childUri
  forever (storeChild db childUri) n

/-- The loop over the rows of `status_meta`. -/
def fetchMeta : List (String × Text) → SqlM D Unit
  | [] => pure ()
  | (key, text) :: rest => do
      let value ← liftM (parsed env text)
      trySuper fun base => setMetaKey clock base key value
      fetchMeta rest

/-- One round of the loop of `meta()`, which keeps what the cache has. -/
def loadMeta : SqlM D Unit := do
  let s ← get
  let rows ← query db fun t => t.metaOf s.impl.name
  fetchMeta clock env rows
  super fun base => { base with mtime := s.impl.mtime }
  modify fun s => { s with impl := { s.impl with metaLoaded := true } }

/-- `SQLStatusImpl::meta() const` -/
def getMeta (n : ℕ) : SqlM D (Json D) := do
  if !(← get).impl.metaLoaded then
    forever (loadMeta db clock env) n
  return (← get).impl.metaData

/-- One round of the loop of `meta( name, value )`. -/
def storeMeta (key : String) (value : Json D) : SqlM D Unit := do
  let text ← liftM (value.serialize env)
  let s ← get
  statement db fun t => .ok (t.replaceMeta ⟨s.impl.name, key, text⟩)
  touchRow db

/-- `SQLStatusImpl::meta( name, value )` -/
def setMeta (key : String) (value : Json D) (n : ℕ) : SqlM D Unit := do
  trySuper fun base => setMetaKey clock base key value
  forever (storeMeta db env key value) n

/-- The loop of `meta( meta )` over the members. -/
def setMembers : List (String × Json D) → ℕ → SqlM D Unit
  | [], _ => pure ()
  | (key, value) :: rest, n => do
      setMeta db clock env key value n
      setMembers rest n

/-- One round of the first loop of `meta( meta )`. -/
def clearMeta : SqlM D Unit := do
  let s ← get
  statement db fun t => .ok (t.deleteMeta s.impl.name)
  touchRow db

/-- `SQLStatusImpl::meta( meta )` -/
def replaceMeta (metaData : Json D) (n : ℕ) : SqlM D Unit := do
  forever (clearMeta db) n
  let members ← liftM metaData.asObject
  setMembers db clock env members n

/-- `SQLStatusImpl::sync` -/
def sync (n : ℕ) : SqlM D Unit := do
  super fun base => (base.setState clock .unknown).2
  reallyLoad db clock n
  if !(← messages db clock n).isEmpty then
    super fun base => { base with messages := [] }
  modify fun s => { s with impl := { s.impl with messagesLoaded := false } }
  if !(← children db clock n).isEmpty then
    super fun base => { base with children := [] }
  modify fun s => { s with impl := { s.impl with childrenLoaded := false } }
  if !(← getMeta db clock env n).empty then
    trySuper fun base => base.setMeta clock .undef
  modify fun s => { s with impl := { s.impl with metaLoaded := false } }

/-- `SQLStatusImpl::serialize`; the concurrency is read from the table. -/
def serialize (n : ℕ) : SqlM D Text := do
  if !(← get).impl.loaded then
    reallyLoad db clock n
  let _ ← messages db clock n
  let _ ← children db clock n
  let _ ← getMeta db clock env n
  let s ← get
  match ← query db fun t => t.statusOf s.impl.name with
  | none => throw .undefined
  | some row =>
      liftM (Private.serialize { s.impl.toPrivate with concurrency := row.concurrency } env)

/-- One round of the loop of `state( state )`, which returns whether it has written. -/
def storeState (state : State) : SqlM D Bool := do
  let s ← get
  let found ← query db fun t => t.statusOf s.impl.name
  -- the text stays empty if there is no row, and no state has this text
  let current := (found.map StatusRow.state).getD .unknown
  if !validStateTransition current state then
    return false
  statement db fun t => .ok (t.updateStatus s.impl.name fun row =>
    { row with state := s.impl.state, mtime := s.impl.mtime })
  return true

/-- `SQLStatusImpl::state( state )` -/
def setState (state : State) (n : ℕ) : SqlM D Bool := do
  let s ← get
  if s.impl.shouldLoad && !s.impl.loaded then
    reallyLoad db clock n
  let s ← get
  let (valid, base) := s.impl.toStatusImpl.setState clock state
  super fun _ => base
  if !valid then
    return false
  forever (storeState db state) n

/-- The row that `insert` writes. -/
def StatusRow.of (s : StatusImpl D) : StatusRow where
  name := s.name
  operation := s.operation
  component := s.component
  progress := s.progress
  code := s.code
  resourceUri := s.resourceUri
  parentUri := s.parentUri
  ctime := s.ctime
  mtime := s.mtime
  ytime := s.ytime
  state := s.state
  failures := s.failures

/-- `SQLStatusImpl::insert`, which returns inside of its loop and leaves `loaded` alone. -/
def insert (n : ℕ) : SqlM D Unit :=
  forever (do
    let s ← get
    statement db fun t => t.insertStatus (.of s.impl.toStatusImpl)) n

/-- One round of the loop of `parent_uri( parent )`. -/
def storeParentUri : SqlM D Unit := do
  let s ← get
  statement db fun t => .ok (t.updateStatus s.impl.name fun row =>
    { row with parentUri := s.impl.parentUri, mtime := s.impl.mtime })

/-- `SQLStatusImpl::parent_uri( parent )` -/
def setParentUri (parent : String) (n : ℕ) : SqlM D Unit := do
  super fun base => base.setParentUri clock parent
  forever (storeParentUri db) n

/-- `StatusManager::create` for a new handle. -/
def create (baseUri name operation resourceUri component : String) (n : ℕ) :
    SqlM D Unit := do
  modify fun s => { s with impl := { StatusImpl.new clock with baseUri := baseUri } }
  super fun base => base.setName clock name
  super fun base => base.setOperation clock operation
  super fun base => base.setResourceUri clock resourceUri
  super fun base => base.setComponent clock component
  let _ ← setState db clock .pending n
  insert db n

/-- `do_create_global_status_v1`, with the values of its content. -/
def doCreateGlobalStatus (baseUri name operation uri component : String)
    (parentUri : Option String) (n : ℕ) : SqlM D Unit :=
  tryCatch (do
    create db clock baseUri name operation uri component n
    match parentUri with
    | none => pure ()
    | some parent => setParentUri db clock parent n)
    fun e =>
      match e with
      | .json what | .std what => throw (.std (errorText "INTERNAL_SERVER_ERROR" 500 what))
      | e => throw e

end Operations

end SqlStatus

end Gearbox
