import Gearbox.Refinement.Meets
import Gearbox.Worker.Failures

/-!
# The failure of another status

Several handlers look at a status that has failed and fail themselves, with
`throw_from_code` of its code and one of its messages. A status that is stopped or that is
updated over HTTP can have failed without a message. `do_runlevel_global_agents_v1` asks if
there is one; the others take the first or the last element of the vector as it is.

`Handler` is one of the places together with what it has seen before the status, and
`propagates_iff` says when it passes the failure on.
-/

namespace Gearbox

namespace Propagation

open Agents Refinement

section Sites

/-- `do_decrement_global_counter_v1` up to the file. -/
def checkCounter (event : Option EventStatus) (exist : Bool) : Except Thrown Unit :=
  match decrementEntry event exist with
  | .threw _ err => .error (.error err)
  | .crashed => .error .undefined
  | .missing | .opens => .ok ()

/-- One round of the loop of `JobManager::delay`; says if there is another one. The text of
a warning is put together if warnings are logged. -/
def delayRound (warn : Bool) (answer : Except Error EventStatus) : Except Thrown Bool :=
  match answer with
  | .error _ => return true
  | .ok s => do
      if s.progress = 100 ∧ s.code ≠ 0 then
        if warn then
          let _ ← back s.messages
        return true
      else
        return false

/-- The check in `GearmanJobImpl::create_status` of the job that creates a status. -/
def checkCreated (s : EventStatus) : Except Thrown Unit := do
  if s.code > 0 then
    raise s.code (front s.messages)

/-- The end of `GearmanJobImpl::run_sync` for a transient status. -/
def runSync (s : EventStatus) (code : ℤ) (message : String) : EventStatus :=
  if code ≥ 300 then
    { state := .completed, progress := 100, code := code, messages := s.messages ++ [message] }
  else { state := .completed, progress := 100, code := 0, messages := s.messages }

/-- A synchronous job that has failed has a message. -/
theorem messages_runSync_ne_nil {s : EventStatus} {code : ℤ} {message : String}
    (h : (runSync s code message).code ≠ 0) : (runSync s code message).messages ≠ [] := by
  rw [runSync] at h ⊢
  split
  · simp
  · rename_i hcode
    rw [if_neg hcode] at h
    exact absurd rfl h

end Sites

section Handlers

/-- A handler and what else it sees: the statuses and responses before the one that has
failed, and all after it. -/
inductive Handler where
  | cancelwatch (fail : ℤ → Except Error Unit)
      (before : List (String × {s : EventStatus // Succeeded s})) (uri : String)
      (after : List (String × Except Error EventStatus))
  | pollstate (before : List {r : Reply // ¬ Failed r.status}) (code : ℤ) (uri : String)
      (after : List (Except Error Reply))
  | stop
  | decrement (exist : Bool)
  | runlevel (content : String) (jobs : List Envelope)
  | delay (warn : Bool)
  | createStatus

/-- What the handler ends with; it may say that it tries again. -/
def Handler.run (h : Handler) (s : EventStatus) : Except Thrown Bool :=
  match h with
  | .cancelwatch fail before uri after => do
      let _ ← watchLoop (fun x => lifted x.2) (fun code => lifted (fail code))
        (before.map (fun x => (x.1, .ok x.2.val)) ++ (uri, .ok s) :: after)
      return false
  | .pollstate before code uri after => do
      let _ ← cancelChildren lifted
        (before.map (fun r => .ok r.val) ++ .ok ⟨code, s, uri⟩ :: after)
      return false
  | .stop => do
      checkEvent (some s)
      return false
  | .decrement exist => do
      checkCounter (some s) exist
      return false
  | .runlevel content jobs => do
      let _ ← lifted (doRunlevelGlobalAgents (some s) content jobs)
      return false
  | .delay warn => delayRound warn (.ok s)
  | .createStatus => do
      checkCreated s
      return false

/-- The code of the exception of `throw_from_code`. -/
def errorClass (code : ℤ) : ℤ :=
  if code ∈ errorCodes then code else 500

/-- The handler tries again or throws what `throw_from_code` throws for the status. -/
def Propagates (s : EventStatus) : Except Thrown Bool → Prop
  | .ok again => again = true
  | .error (.error err) => err.code = errorClass s.code
  | .error .undefined => False

/-- When the handler passes the failure on. -/
def Handler.Passes (s : EventStatus) : Handler → Prop
  | .cancelwatch fail _ _ _ =>
      match fail s.code with
      | .ok _ => s.messages ≠ []
      | .error err => err.code = errorClass s.code
  | .pollstate _ code _ _ => s.messages ≠ [] ∧ errorClass code = errorClass s.code
  | .stop | .decrement _ => s.messages ≠ []
  | .runlevel _ _ => True
  | .delay warn => warn = true → s.messages ≠ []
  | .createStatus => 0 < s.code ∧ s.messages ≠ []

variable {s : EventStatus}

theorem throwFromCode_code (code : ℤ) (message : String) :
    (throwFromCode code message).code = errorClass code := by
  rw [throwFromCode, errorClass]
  split
  · rfl
  · rfl

/-- A failure that is raised is passed on if there is a message and the code is right. -/
theorem propagates_raised (code : ℤ) : Propagates s (.error (raised code s.messages)) ↔
    s.messages ≠ [] ∧ errorClass code = errorClass s.code := by
  rw [raised]
  cases hlast : s.messages.getLast? with
  | none =>
      rw [List.getLast?_eq_none_iff] at hlast
      exact iff_of_false id fun h => h.1 hlast
  | some message =>
      have hne : s.messages ≠ [] := by
        intro hnil
        rw [hnil] at hlast
        cases hlast
      rw [and_iff_right hne, Propagates, throwFromCode_code]

/-- The watched statuses before the one that has failed are passed. -/
theorem watchLoop_before (fail : ℤ → Except Error Unit)
    (before : List (String × {s : EventStatus // Succeeded s}))
    (rest : List (String × Except Error EventStatus)) :
    watchLoop (fun x => lifted x.2) (fun code => lifted (fail code))
        (before.map (fun x => (x.1, .ok x.2.val)) ++ rest) =
      watchLoop (fun x => lifted x.2) (fun code => lifted (fail code)) rest := by
  induction before with
  | nil => rfl
  | cons x before ih =>
      obtain ⟨uri, t, hprogress, hcode⟩ := x
      rw [List.map_cons, List.cons_append, watchLoop, lifted, Except.mapError, ok_bind,
        if_neg (not_not_intro hprogress), if_neg (not_not_intro hcode), ih]

/-- The children before the one that has failed are passed. -/
theorem cancelChildren_before (before : List {r : Reply // ¬ Failed r.status})
    {rest : List (Except Error Reply)} {e : Thrown}
    (h : cancelChildren lifted rest = .error e) :
    cancelChildren lifted (before.map (fun r => .ok r.val) ++ rest) = .error e := by
  induction before with
  | nil => exact h
  | cons r before ih =>
      obtain ⟨r, hr⟩ := r
      rw [List.map_cons, List.cons_append, cancelChildren, lifted, Except.mapError, ok_bind,
        if_neg (c := r.status.progress = 100 ∧ r.status.code ≠ 0) hr, ih]
      rfl

/-- `JobManager::delay` reads the last message only for its warning. -/
theorem propagates_delay (hfailed : Failed s) (warn : Bool) :
    Propagates s ((Handler.delay warn).run s) ↔ (Handler.delay warn).Passes s := by
  have hround : delayRound warn (.ok s) = (if warn then do
      let _ ← back s.messages
      return true
    else return true) := by
    rw [delayRound, if_pos (c := s.progress = 100 ∧ s.code ≠ 0) hfailed]
  rw [Handler.run, hround, Handler.Passes]
  cases warn with
  | false => exact iff_of_true rfl nofun
  | true =>
      rw [if_pos rfl, back]
      cases hlast : s.messages.getLast? with
      | none =>
          rw [List.getLast?_eq_none_iff] at hlast
          exact iff_of_false id fun h => h rfl hlast
      | some message =>
          refine iff_of_true rfl fun _ hnil => ?_
          rw [hnil] at hlast
          cases hlast

/-- `create_status` reads the first message, and only for a positive code. -/
theorem propagates_createStatus :
    Propagates s (Handler.createStatus.run s) ↔ Handler.createStatus.Passes s := by
  rw [Handler.run, checkCreated, Handler.Passes]
  by_cases hcode : s.code > 0
  · rw [if_pos hcode]
    cases hmessages : s.messages with
    | nil => exact iff_of_false id fun h => h.2 rfl
    | cons message rest =>
        exact iff_of_true (throwFromCode_code _ _) ⟨hcode, List.cons_ne_nil _ _⟩
  · rw [if_neg hcode]
    exact iff_of_false Bool.false_ne_true fun h => hcode h.1

/-- For every handler and every status that has failed, whatever it has met before, the
failure is passed on exactly under its condition. -/
theorem propagates_iff (hfailed : Failed s) (h : Handler) :
    Propagates s (h.run s) ↔ h.Passes s := by
  have hsuccess := isSuccess_of_failed hfailed
  cases h with
  | cancelwatch fail before uri after =>
      rw [Handler.run, watchLoop_before, watchLoop, lifted, Except.mapError, ok_bind,
        if_neg (not_not_intro hfailed.1), if_pos hfailed.2, Handler.Passes]
      cases hfail : fail s.code with
      | error err => exact Iff.rfl
      | ok u =>
          rw [raise_back, lifted, Except.mapError, ok_bind]
          exact (propagates_raised s.code).trans (and_iff_left rfl)
  | pollstate before code uri after =>
      have hfirst : cancelChildren lifted (.ok ⟨code, s, uri⟩ :: after) =
          .error (raised code s.messages) := by
        rw [cancelChildren, lifted, Except.mapError, ok_bind, raise_back]
        exact if_pos (c := s.progress = 100 ∧ s.code ≠ 0) hfailed
      rw [Handler.run, cancelChildren_before before hfirst, error_bind]
      exact propagates_raised code
  | stop =>
      have hcheck : checkEvent (m := Except Thrown) (some s) =
          .error (raised s.code s.messages) := by
        rw [checkEvent_of_failed hfailed]
        rfl
      rw [Handler.run, hcheck, error_bind, propagates_raised, and_iff_left rfl]
      exact Iff.rfl
  | decrement exist =>
      have hcheck : checkCounter (some s) exist = .error (raised s.code s.messages) := by
        rw [checkCounter, decrementEntry, hsuccess, raised]
        cases s.messages.getLast? <;> rfl
      rw [Handler.run, hcheck, error_bind, propagates_raised, and_iff_left rfl]
      exact Iff.rfl
  | runlevel content jobs =>
      have hlevel : doRunlevelGlobalAgents (some s) content jobs = .error
          (throwFromCode s.code (s.messages.getLast?.getD "Unknown error from agent")) := by
        rw [doRunlevelGlobalAgents, hsuccess]
        rfl
      rw [Handler.run, hlevel, lifted, Except.mapError, error_bind]
      exact iff_of_true (throwFromCode_code _ _) trivial
  | delay warn => exact propagates_delay hfailed warn
  | createStatus => exact propagates_createStatus

/-- A status that was stopped at a checkpoint: it has no message. -/
def stoppedStatus : EventStatus where
  state := .stopped
  progress := 100
  code := 410
  messages := []

def failedStatus : EventStatus where
  state := .completed
  progress := 100
  code := 404
  messages := ["text"]

theorem propagates_failedStatus :
    Failed failedStatus ∧ Propagates failedStatus (Handler.stop.run failedStatus) := by
  have hfailed : Failed failedStatus := ⟨rfl, by decide⟩
  exact ⟨hfailed, (propagates_iff hfailed .stop).mpr (List.cons_ne_nil _ _)⟩

/-- The last of no messages is taken. -/
theorem not_propagates :
    ¬ ∀ (s : EventStatus) (h : Handler), Failed s → Propagates s (h.run s) := by
  intro h
  have hfailed : Failed stoppedStatus := ⟨rfl, by decide⟩
  exact (propagates_iff hfailed .stop).mp (h stoppedStatus .stop hfailed) rfl

end Handlers

end Propagation

end Gearbox
