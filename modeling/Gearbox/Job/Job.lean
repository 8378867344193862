import Mathlib.Data.List.Infix
import Gearbox.Json.Text
import Gearbox.Texts.Cut

/-!
# Jobs

The fields of a job, its name and its event handlers. A job is built by `GearmanJobImpl` or
`RestJobImpl`; both keep their fields in `JobImpl::Private`. A handler is again a job.
`JobImpl::on` keeps the handlers in a map from events to pointers, and a missing entry is
the same as a null pointer.

`JobImpl::name` takes the name of a gearman job apart. The operation is always stored by
`JobImpl::operation`, which renames `put` and `post`, so that no job has these operations.
-/

namespace Gearbox

namespace Jobs

open Json Refinement Texts

/-- `Job::JobType` -/
inductive JobType where
  | unknown
  | sync
  | async
  deriving DecidableEq, Repr

/-- `Job::Event` -/
inductive Event where
  | unknown
  | completed
  | failed
  | succeeded
  | started
  | stopped
  | cancelled
  deriving DecidableEq, Repr

namespace Event

/-- The events in the order of the enumeration. -/
def all : List Event :=
  [.unknown, .completed, .failed, .succeeded, .started, .stopped, .cancelled]

theorem mem_all (e : Event) : e ∈ all := by
  cases e <;> decide

end Event

/-- `Job::event2str` -/
def event2str : Event → String
  | .completed => "COMPLETED"
  | .failed => "FAILED"
  | .succeeded => "SUCCEEDED"
  | .started => "STARTED"
  | .stopped => "STOPPED"
  | .cancelled => "CANCELLED"
  | .unknown => "UNKNOWN"

/-- `Job::str2event` -/
def str2event (ev : String) : Event :=
  if ev = "COMPLETED" then .completed
  else if ev = "FAILED" then .failed
  else if ev = "SUCCEEDED" then .succeeded
  else if ev = "STARTED" then .started
  else if ev = "STOPPED" then .stopped
  else if ev = "CANCELLED" then .cancelled
  else .unknown

theorem str2event_event2str (e : Event) : str2event (event2str e) = e := by
  cases e <;> rfl

theorem event2str_injective : Function.Injective event2str := by
  intro e e' h
  have hinverse := congrArg str2event h
  rwa [str2event_event2str, str2event_event2str] at hinverse

/-- `HttpClient::method_t` -/
inductive Method where
  | get
  | delete
  | post
  | put
  | head
  | unknown
  deriving DecidableEq, Repr

/-- The class that implements a job; `impltype` tells them apart. -/
inductive Impl where
  | gearman
  | rest
  deriving DecidableEq, Repr

/-- `Hash` of the source. -/
abbrev Hash : Type :=
  Assoc.Map String String

/-- An operation as a job stores it. -/
structure Operation where
  text : String
  ne_put : text ≠ "put"
  ne_post : text ≠ "post"

/-- `JobImpl::operation` -/
def Operation.of (op : String) : Operation :=
  if hput : op = "put" then ⟨"create", by decide, by decide⟩
  else if hpost : op = "post" then ⟨"update", by decide, by decide⟩
  else ⟨op, hput, hpost⟩

/-- A stored operation is not renamed again. -/
theorem Operation.of_text (op : Operation) : Operation.of op.text = op := by
  obtain ⟨text, hput, hpost⟩ := op
  simp [Operation.of, hput, hpost]

/-- `JobImpl::Private` without the handlers, the event status and the parsed content. -/
structure Fields where
  impl : Impl
  name : String
  version : String
  operation : Operation
  component : String
  resourceType : String
  resourceName : String
  baseUri : String
  parentUri : String
  remoteIp : String
  remoteUser : String
  type : JobType
  method : Method
  content : String
  arguments : List String
  matrixArguments : Hash
  queryParams : Hash
  headers : Hash
  environ : Hash
  status : String
  timeout : ℤ

/-- The base uri of a job that sets none. -/
def defaultBaseUri : String :=
  "http://localhost:4080/internal"

/-- The constructor of `JobImpl::Private`. -/
def Fields.new (impl : Impl) : Fields where
  impl := impl
  name := ""
  version := ""
  operation := ⟨"", by decide, by decide⟩
  component := ""
  resourceType := ""
  resourceName := ""
  baseUri := defaultBaseUri
  parentUri := ""
  remoteIp := ""
  remoteUser := ""
  type := .async
  method := .unknown
  content := ""
  arguments := []
  matrixArguments := .empty
  queryParams := .empty
  headers := .empty
  environ := .empty
  status := ""
  timeout := 600

/-- A job: its fields, the handlers of its events, and the status that an event handler
gets of the job that had the event. -/
inductive Job (S : Type) where
  | mk (fields : Fields) (events : Event → Option (Job S)) (eventStatus : Option S)

namespace Job

variable {S : Type}

def fields : Job S → Fields
  | .mk f _ _ => f

/-- `Job::on` -/
def on : Job S → Event → Option (Job S)
  | .mk _ events _ => events

def eventStatus : Job S → Option S
  | .mk _ _ st => st

mutual

/-- Induction over the handlers. -/
theorem induct {P : Job S → Prop}
    (step : ∀ f events st, (∀ e h, events e = some h → P h) → P (.mk f events st)) :
    ∀ j, P j
  | .mk f events st => step f events st fun e h he => inductHandler step (events e) h he

theorem inductHandler {P : Job S → Prop}
    (step : ∀ f events st, (∀ e h, events e = some h → P h) → P (.mk f events st)) :
    ∀ (o : Option (Job S)) (h : Job S), o = some h → P h
  | some j, _, rfl => induct step j

end

end Job

section Name

/-- A version starts with `v` and a digit. -/
def isVersion : List Char → Bool
  | 'v' :: c :: _ => c.isDigit
  | _ => false

/-- What `set_job_from_name` throws. -/
def badName (name problem : String) : Failure :=
  .std ("The string '" ++ name ++ "' is " ++ problem)

/-- `set_job_from_name` -/
def setJobFromName (f : Fields) (name : String) : Except Failure Fields :=
  match name.toList with
  | 'd' :: 'o' :: '_' :: rest =>
    match cut '_' rest with
    | none => throw (badName name "not a valid job name.")
    | some (op, rest) =>
      let version := afterLast '_' name.toList
      if isVersion version then
        match cut '_' rest with
        | none => throw (badName name "missing a valid component.")
        | some (component, rest) =>
          match cut '_' rest with
          | none => throw (badName name "missing a valid resource type.")
          | some (resource, _) =>
            return { f with
              version := String.ofList version
              operation := .of (String.ofList op)
              component := String.ofList component
              resourceType := String.ofList resource }
      else
        throw (badName name "missing a version.")
  | _ => throw (badName name "not a valid job name.")

/-- `JobImpl::name`; the name of a REST job is its uri. -/
def Fields.named (f : Fields) (name : String) : Except Failure Fields :=
  if "://".toList <:+: name.toList then return { f with name := name }
  else setJobFromName { f with name := name } name

end Name

end Jobs

end Gearbox
