import Gearbox.Json.RoundTrip
import Gearbox.Status.State
import Gearbox.Uri.Canonical

/-!
# Status resources

A `StatusImpl` keeps the fields of a status in `Private`, and `serialize` writes them as the
text of an object, which is the resource that a client gets. Some fields are left out: the
code until the progress is 100, an empty parent, empty meta data, and a time to yield that
is not positive.

Most setters set `mtime` to the current time. The time is a function of the number of times
that the status has asked for it.
-/

namespace Gearbox

open Json Refinement

namespace Status

variable {D : Type}

/-- `StatusImpl::Private` without the configuration and the status manager. -/
structure Private (D : Type) where
  messages : List String := []
  children : List String := []
  name : String := ""
  operation : String := ""
  metaData : Json D := .undef
  progress : UInt32 := 0
  code : Int32 := -1
  resourceUri : String := ""
  parentUri : String := ""
  ctime : Int64
  mtime : Int64
  ytime : Int64 := -1
  baseUri : String := ""
  state : State := .unknown
  failures : UInt32 := 0
  component : String := ""
  concurrency : UInt32 := 0

/-- A status, and how often it has asked for the time. -/
structure StatusImpl (D : Type) extends Private D where
  asked : ℕ

namespace StatusImpl

variable (clock : ℕ → Int64) (s : StatusImpl D)

/-- The constructor. -/
def new : StatusImpl D where
  ctime := clock 0
  mtime := clock 1
  asked := 2

/-- The part of a setter that sets `mtime` to the current time. -/
def touch : StatusImpl D :=
  { s with mtime := clock s.asked, asked := s.asked + 1 }

def addMessage (message : String) : StatusImpl D :=
  touch clock { s with messages := s.messages ++ [message] }

def addChild (child : String) : StatusImpl D :=
  touch clock { s with children := s.children ++ [child] }

def setName (n : String) : StatusImpl D :=
  touch clock { s with name := n }

def setOperation (op : String) : StatusImpl D :=
  touch clock { s with operation := op }

def setResourceUri (uri : String) : StatusImpl D :=
  touch clock { s with resourceUri := uri }

def setComponent (c : String) : StatusImpl D :=
  touch clock { s with component := c }

/-- `StatusImpl::meta`, which copies the value. -/
def setMeta (metaData : Json D) : Except Failure (StatusImpl D) := do
  return touch clock { s with metaData := ← metaData.copy }

def setProgress (p : UInt32) : StatusImpl D :=
  touch clock { s with progress := p }

def setParentUri (parent : String) : StatusImpl D :=
  touch clock { s with parentUri := parent }

/-- `StatusImpl::state`; `mtime` stays where the status is stopped or cancelled. -/
def setState (state : State) : Bool × StatusImpl D :=
  if validStateTransition s.state state = false ∧ state ≠ .unknown then
    (false, s)
  else
    let s := { s with state := state }
    (true, if state ∈ [.stopping, .stopped, .cancelling, .cancelled] then s else touch clock s)

/-- A valid transition is made, and any other is refused. -/
theorem setState_eq (st : State) : ∃ t n, s.setState clock st =
    (validStateTransition s.state st, { s with
      state := if validStateTransition s.state st then st else s.state
      mtime := t
      asked := n }) := by
  rw [setState]
  by_cases hvalid : validStateTransition s.state st = true
  · rw [if_neg (by rw [hvalid]; simp), if_pos hvalid, hvalid]
    dsimp only
    split
    · exact ⟨s.mtime, s.asked, rfl⟩
    · exact ⟨clock s.asked, s.asked + 1, rfl⟩
  · have hunknown : st ≠ .unknown := by
      rintro rfl
      exact hvalid (validStateTransition_unknown_right s.state)
    have hfalse : validStateTransition s.state st = false := Bool.eq_false_iff.mpr hvalid
    rw [if_pos ⟨hfalse, hunknown⟩, if_neg hvalid, hfalse]
    exact ⟨s.mtime, s.asked, rfl⟩

end StatusImpl

section Serialize

/-- The loop that writes the elements of an array. The index is an `unsigned int` that
`operator[]` takes as an `int` and adds one to. -/
def writeArray (write : String → Except Failure String) (texts : List String) :
    Except Failure (Json D) := do
  let written ← (texts.take (2 ^ 31)).mapM write
  if texts.length < 2 ^ 31 then return .array (written.map .string) else throw .undefined

def localhost : List Char :=
  ['l', 'o', 'c', 'a', 'l', 'h', 'o', 's', 't']

/-- The uri of an internal job gets the host of the base uri, so that it can be queried from
outside. -/
def external (base uri : Uri) : Except Failure Uri := do
  let hostname ← uri.getHostname
  if hostname = localhost then base.getHostname >>= uri.setHostname else return uri

/-- The uri of a child. -/
def writeChild (base : Uri) (child : String) : Except Failure String := do
  let uri ← external base (← Uri.parse child.toList)
  return String.ofList (← uri.canonical)

/-- The base uri of a status that has none. -/
def internalBaseUri : String :=
  "http://localhost:4080/internal"

namespace Private

variable (s : Private D)

/-- The base uri of the resource. -/
def base : Except Failure Uri :=
  Uri.parse (if s.baseUri = "" then internalBaseUri else s.baseUri).toList

/-- The meta data of the resource, if there are any. -/
def writeMeta : Except Failure (Option (Json D)) :=
  if s.metaData.empty then return none else do return some (← s.metaData.copy)

/-- The assignments of `serialize`, in their order. -/
def fields (statusUri : String) (messages children : Json D) (metaData : Option (Json D)) :
    List (String × Option (Json D)) :=
  [("operation", some (.string s.operation)),
    ("component", some (.string s.component)),
    ("state", some (.string (state2str s.state))),
    ("uri", some (.string s.resourceUri)),
    ("status_uri", some (.string statusUri)),
    ("progress", some (.int s.progress.toNat)),
    ("code", if s.progress = 100 then some (.int s.code.toInt) else none),
    ("messages", some messages),
    ("children", some children),
    ("meta", metaData),
    ("parent_uri", if s.parentUri = "" then none else some (.string s.parentUri)),
    ("failures", some (.int s.failures.toNat)),
    ("ctime", some (.int s.ctime.toInt)),
    ("mtime", some (.int s.mtime.toInt)),
    ("ytime", if 0 < s.ytime then some (.int s.ytime.toInt) else none),
    ("concurrency", some (.int s.concurrency.toNat))]

/-- The object that `serialize` makes. -/
def toJson : Except Failure (Json D) := do
  let base ← s.base
  let canonical ← base.canonical
  let statusUri := String.ofList canonical ++ "/status/" ++ s.name
  let messages ← writeArray pure s.messages
  let children ← writeArray (writeChild base) s.children
  let metaData ← s.writeMeta
  return .object (Assoc.assignAll (s.fields statusUri messages children metaData) [])

/-- `StatusImpl::serialize` -/
def serialize (env : Env D) : Except Failure Text := do
  Json.serialize env (← s.toJson)

theorem nodup_fields (statusUri : String) (messages children : Json D)
    (metaData : Option (Json D)) :
    ((s.fields statusUri messages children metaData).map Prod.fst).Nodup := by
  simp [fields]

end Private

end Serialize

section Written

/-- A loop that has written an array has written every element, and there are few. -/
theorem writeArray_eq_ok {write : String → Except Failure String} {texts : List String}
    {j : Json D} : writeArray write texts = .ok j ↔ texts.length < 2 ^ 31 ∧
      ∃ written, texts.mapM write = .ok written ∧ j = .array (written.map .string) := by
  rw [writeArray, bind_eq_ok]
  by_cases hlength : texts.length < 2 ^ 31
  · rw [List.take_of_length_le (Nat.le_of_lt hlength)]
    constructor
    · rintro ⟨written, hwritten, h⟩
      rw [if_pos hlength] at h
      cases h
      exact ⟨hlength, written, hwritten, rfl⟩
    · rintro ⟨-, written, hwritten, rfl⟩
      exact ⟨written, hwritten, if_pos hlength⟩
  · constructor
    · rintro ⟨written, hwritten, h⟩
      rw [if_neg hlength] at h
      cases h
    · rintro ⟨hlength', -⟩
      exact absurd hlength' hlength

theorem mapM_pure (texts : List String) :
    texts.mapM (pure : String → Except Failure String) = .ok texts := by
  rw [mapM_eq_ok, List.forall₂_same]
  exact fun _ _ => rfl

/-- What the object of a resource is made of. -/
structure Private.Written (s : Private D) (j : Json D) (base : Uri) (canonical : List Char)
    (children : List String) (metaData : Option (Json D)) : Prop where
  base_eq : s.base = .ok base
  canonical_eq : base.canonical = .ok canonical
  messages : s.messages.length < 2 ^ 31
  length : s.children.length < 2 ^ 31
  children_eq : s.children.mapM (writeChild base) = .ok children
  meta_eq : s.writeMeta = .ok metaData
  object : j = .object (Assoc.assignAll (s.fields
    (String.ofList canonical ++ "/status/" ++ s.name) (.array (s.messages.map .string))
    (.array (children.map .string)) metaData) [])

theorem Private.toJson_eq_ok {s : Private D} {j : Json D} : s.toJson = .ok j ↔
    ∃ base canonical children metaData, s.Written j base canonical children metaData := by
  simp only [Private.toJson, bind_eq_ok, writeArray_eq_ok]
  constructor
  · rintro ⟨base, hbase, canonical, hcanonical, messages, ⟨hmessages, texts, htexts, rfl⟩,
      children, ⟨hlength, written, hwritten, rfl⟩, metaData, hmeta, h⟩
    rw [mapM_pure] at htexts
    cases htexts
    cases h
    exact ⟨base, canonical, written, metaData, hbase, hcanonical, hmessages, hlength, hwritten,
      hmeta, rfl⟩
  · rintro ⟨base, canonical, children, metaData, h⟩
    exact ⟨base, h.base_eq, canonical, h.canonical_eq, _,
      ⟨h.messages, s.messages, mapM_pure s.messages, rfl⟩, _,
      ⟨h.length, children, h.children_eq, rfl⟩, metaData, h.meta_eq, by rw [h.object]; rfl⟩

end Written

end Status

end Gearbox
