import Gearbox.Agents.Pipeline

/-!
# Looking at the status of another job

Three handlers of a status look at the status of another job and fail if it has failed, with
`throw_from_code` and the last message of that status: `do_cancelwatch_global_status_v1` for
what it watches, `do_pollstate_global_status_v1` for the cancellations of the children and
`do_stop_global_status_v1` for the job of the pre-cancel event. The status may be without a
message, and taking the last one is undefined then.

What they ask for is a parameter, in any monad that throws.
-/

namespace Gearbox

namespace Propagation

open Agents

/-- What a handler ends with if it does not return: an exception, or an element of an empty
vector that is used. -/
inductive Thrown where
  | error (err : Error)
  | undefined
  deriving DecidableEq, Repr

/-- A call that throws. -/
def lifted {α : Type} (r : Except Error α) : Except Thrown α :=
  r.mapError .error

/-- `std::vector::back` -/
def back (messages : List String) : Except Thrown String :=
  match messages.getLast? with
  | some message => .ok message
  | none => .error .undefined

/-- `std::vector::operator[]` with the index 0 -/
def front (messages : List String) : Except Thrown String :=
  match messages.head? with
  | some message => .ok message
  | none => .error .undefined

/-- A response to a request for a child. Its code is 0 if it was accepted, and its status may
be that of another server. -/
structure Reply where
  code : ℤ
  status : EventStatus
  uri : String
  deriving DecidableEq, Repr

/-- The status of a job that has failed. -/
def Failed (s : EventStatus) : Prop :=
  s.progress = 100 ∧ s.code ≠ 0

def Succeeded (s : EventStatus) : Prop :=
  s.progress = 100 ∧ s.code = 0

instance (s : EventStatus) : Decidable (Failed s) :=
  inferInstanceAs (Decidable (_ ∧ _))

instance (s : EventStatus) : Decidable (Succeeded s) :=
  inferInstanceAs (Decidable (_ ∧ _))

theorem isSuccess_of_failed {s : EventStatus} (h : Failed s) : s.isSuccess = .ok false := by
  rw [EventStatus.isSuccess, if_neg (not_not_intro h.1), decide_eq_false h.2]

theorem isSuccess_of_succeeded {s : EventStatus} (h : Succeeded s) : s.isSuccess = .ok true := by
  rw [EventStatus.isSuccess, if_neg (not_not_intro h.1), decide_eq_true h.2]

section Sites

variable {m : Type → Type} [MonadExceptOf Thrown m] {α β : Type}

/-- `throw_from_code` with a message that is read first. -/
def raise (code : ℤ) (message : Except Thrown String) : m α :=
  match message with
  | .ok message => throw (.error (throwFromCode code message))
  | .error t => throw t

/-- What is thrown with the last message. -/
def raised (code : ℤ) (messages : List String) : Thrown :=
  match messages.getLast? with
  | some message => .error (throwFromCode code message)
  | none => .undefined

theorem raise_back (code : ℤ) (messages : List String) :
    (raise code (back messages) : m α) = throw (raised code messages) := by
  unfold raise back raised
  cases messages.getLast? <;> rfl

variable [Monad m]

/-- The loop of `do_cancelwatch_global_status_v1` over what is to be watched; `fail` is
`fail( code )` of the own status. It returns what is still to be watched. -/
def watchLoop (fetch : β → m EventStatus) (fail : ℤ → m Unit) : List β → m (List β)
  | [] => return []
  | uri :: rest => do
      let s ← fetch uri
      if s.progress ≠ 100 then
        return uri :: rest
      else if s.code ≠ 0 then
        fail s.code
        raise s.code (back s.messages)
      else
        watchLoop fetch fail rest

/-- The loop of `do_pollstate_global_status_v1` over the children, in the `try` block. It
returns the URIs to watch, in the order of the children. -/
def cancelChildren (post : β → m Reply) : List β → m (List String)
  | [] => return []
  | child :: rest => do
      let r ← post child
      if r.status.progress = 100 ∧ r.status.code ≠ 0 then
        raise r.code (back r.status.messages)
      else
        return r.uri :: (← cancelChildren post rest)

/-- The check in front of `do_stop_global_status_v1`: after a pre-cancel job it is aborted if
that job has failed. -/
def checkEvent (event : Option EventStatus) : m Unit :=
  match event with
  | none => return ()
  | some evt =>
      match evt.isSuccess with
      | .error err => throw (.error err)
      | .ok false => raise evt.code (back evt.messages)
      | .ok true => return ()

theorem checkEvent_of_succeeded {evt : EventStatus} (h : Succeeded evt) :
    checkEvent (some evt) = (return () : m Unit) := by
  simp only [checkEvent, isSuccess_of_succeeded h]

theorem checkEvent_of_failed {evt : EventStatus} (h : Failed evt) :
    checkEvent (some evt) = (throw (raised evt.code evt.messages) : m Unit) := by
  simp only [checkEvent, isSuccess_of_failed h, raise_back]

end Sites

/-- Without a message, and only then, the last one is not there to be thrown. -/
theorem raised_eq_undefined {code : ℤ} {messages : List String} :
    raised code messages = .undefined ↔ messages = [] := by
  rw [raised]
  cases hlast : messages.getLast? with
  | none => exact iff_of_true rfl (List.getLast?_eq_none_iff.1 hlast)
  | some message =>
      refine iff_of_false nofun ?_
      rintro rfl
      cases hlast

end Propagation

end Gearbox
