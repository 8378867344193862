import Mathlib.Tactic.Common

/-!
# The states of a status

`State` is `Status::State` and `validStateTransition` the relation that every
change of it is checked against: the base class checks it on the cached state,
the SQL implementation once more on the column inside the transaction, and the
transient implementation on the shared record. The column holds the text of
`state2str`, which `str2state` reads back (`str2state_state2str`), so the rest of
the development stores the state itself.
-/

namespace Gearbox

namespace Status

inductive State where
  | unknown
  | pending
  | running
  | cancelling
  | cancelled
  | completed
  | stopping
  | stopped
  deriving DecidableEq, Repr, Inhabited

def state2str : State → String
  | .pending => "PENDING"
  | .running => "RUNNING"
  | .cancelling => "CANCELLING"
  | .cancelled => "CANCELLED"
  | .completed => "COMPLETED"
  | .stopping => "STOPPING"
  | .stopped => "STOPPED"
  | .unknown => "UNKNOWN"

/-- The state a column text stands for; the text is compared in upper case and
anything else is `unknown`. -/
def str2state (str : String) : State :=
  let istr := str.toList.map Char.toUpper
  if istr = "PENDING".toList then .pending
  else if istr = "RUNNING".toList then .running
  else if istr = "CANCELLING".toList then .cancelling
  else if istr = "CANCELLED".toList then .cancelled
  else if istr = "COMPLETED".toList then .completed
  else if istr = "STOPPING".toList then .stopping
  else if istr = "STOPPED".toList then .stopped
  else .unknown

theorem str2state_state2str (s : State) : str2state (state2str s) = s := by
  cases s <;> decide

/-- The transitions a status may make. Setting `unknown` and staying in the same
state are always allowed. -/
def validStateTransition (src dst : State) : Bool :=
  if dst = .unknown then true
  else if dst = src then true
  else match src with
    | .unknown => true
    | .pending => dst = .running ∨ dst = .cancelled ∨ dst = .completed
    | .running => dst = .completed ∨ dst = .stopping
    | .stopping => dst = .stopped ∨ dst = .completed
    | .stopped => dst = .cancelling
    | .completed => dst = .cancelling
    -- a failed on-cancel job moves the state back, so that the cancel can be
    -- attempted again
    | .cancelling => dst = .cancelled ∨ dst = .completed
    | .cancelled => false

@[simp] theorem validStateTransition_self (s : State) :
    validStateTransition s s = true := by
  cases s <;> rfl

@[simp] theorem validStateTransition_unknown_left (s : State) :
    validStateTransition .unknown s = true := by
  cases s <;> rfl

@[simp] theorem validStateTransition_unknown_right (s : State) :
    validStateTransition s .unknown = true := rfl

/-- Nothing but `unknown` is reached from `cancelled`. -/
theorem eq_cancelled_of_validStateTransition {s : State} (hs : s ≠ .unknown)
    (h : validStateTransition .cancelled s = true) : s = .cancelled := by
  revert hs h
  cases s <;> decide

end Status

end Gearbox
