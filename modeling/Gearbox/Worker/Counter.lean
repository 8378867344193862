import Gearbox.Json.Numbers
import Gearbox.Worker.Propagation
import Gearbox.Worker.RunJob

/-!
# Retrying a decrement

`do_decrement_global_counter_v1` reads the counter file under a lock, writes the number
below, and removes the file when the number is not positive. Everything from the opening of
the lock to the removal is in one `try` block, and each exception in it makes the handler ask
for a retry. The file is what it was if and only if the exception came before the file was
opened for writing (`retry_keeps_iff`); then the next run does what this one should have done.

`Faults` says which of the calls fail. What is read or written may end early: an error while
reading is not noticed, and one while writing is noticed when the file is closed.
-/

namespace Gearbox

namespace Counter

open Agents (Error EventStatus)
open Json Propagation Refinement Worker

section Digits

/-- `boost::lexical_cast<int>` -/
def castInt (text : List Char) : Option ℤ :=
  match castDigits (unsigned text).1 (unsigned text).2 with
  | some n => if -2 ^ 31 ≤ n ∧ n < 2 ^ 31 then some n else none
  | none => none

/-- `boost::lexical_cast<std::string>` of an `int` -/
def castText (n : ℤ) : List Char :=
  (toString n).toList

theorem castDigits_eq_some {negative : Bool} {digits : List Char} {n : ℤ}
    (h : castDigits negative digits = some n) : digits ≠ [] ∧
      n = if negative then -(Nat.ofDigitChars 10 digits 0 : ℤ)
        else Nat.ofDigitChars 10 digits 0 := by
  have hvalue : ∀ m : ℤ, (if IsInt64 m then some m else none) = some n → n = m := by
    intro m hm
    split at hm
    · exact (Option.some.inj hm).symm
    · cases hm
  rw [castDigits] at h
  by_cases hdigits : digits ≠ [] ∧ digits.all Char.isDigit
  · rw [if_pos hdigits] at h
    exact ⟨hdigits.1, hvalue _ h⟩
  · rw [if_neg hdigits] at h
    cases h

theorem castInt_eq_some {text : List Char} {n : ℤ} (h : castInt text = some n) :
    castDigits (unsigned text).1 (unsigned text).2 = some n := by
  rw [castInt] at h
  split at h
  · rename_i m hm
    split at h
    · rw [hm, h]
    · cases h
  · cases h

theorem unsigned_of_isDigit {digits : List Char} (h : ∀ c ∈ digits, c.isDigit) :
    unsigned digits = (false, digits) := by
  rw [unsigned.eq_def]
  split
  · cases h '-' List.mem_cons_self
  · cases h '+' List.mem_cons_self
  · rfl

theorem isDigit_take {m k : ℕ} {c : Char} (h : c ∈ (Nat.toDigits 10 m).take k) : c.isDigit :=
  Nat.isDigit_of_mem_toDigits (by decide) (by decide) (List.mem_of_mem_take h)

/-- The digits that are cut off make the number at least ten times as large. -/
theorem ofDigitChars_take (m k : ℕ) :
    (Nat.toDigits 10 m).take k = Nat.toDigits 10 m ∨
      10 * Nat.ofDigitChars 10 ((Nat.toDigits 10 m).take k) 0 ≤ m := by
  have hvalue : Nat.ofDigitChars 10 (Nat.toDigits 10 m) 0 = m := Nat.ofDigitChars_ten_toDigits
  rw [← List.take_append_drop k (Nat.toDigits 10 m), Nat.ofDigitChars_append,
    Nat.ofDigitChars_eq_ofDigitChars_zero] at hvalue
  cases hdrop : (Nat.toDigits 10 m).drop k with
  | nil => exact .inl (List.take_of_length_le (List.drop_eq_nil_iff.mp hdrop))
  | cons c rest =>
      right
      rw [hdrop, List.length_cons, Nat.pow_succ, Nat.mul_comm (10 ^ rest.length)] at hvalue
      calc 10 * Nat.ofDigitChars 10 ((Nat.toDigits 10 m).take k) 0
          ≤ 10 * 10 ^ rest.length * Nat.ofDigitChars 10 ((Nat.toDigits 10 m).take k) 0 :=
            Nat.mul_le_mul_right _ (Nat.le_mul_of_pos_right 10 (Nat.pow_pos (by decide)))
        _ ≤ m := by omega

/-- No part of the text of the number below is read as the number. -/
theorem castInt_take_castText (n : ℤ) (k : ℕ) : castInt ((castText (n - 1)).take k) ≠ some n := by
  intro h
  have hcast := castInt_eq_some h
  rw [castText, toList_toString] at hcast
  by_cases hnonneg : 0 ≤ n - 1
  · rw [if_pos hnonneg, unsigned_of_isDigit fun c => isDigit_take] at hcast
    obtain ⟨-, hn⟩ := castDigits_eq_some hcast
    dsimp only at hn
    rw [if_neg Bool.false_ne_true] at hn
    rcases ofDigitChars_take (n - 1).toNat k with htake | hle
    · rw [htake, Nat.ofDigitChars_ten_toDigits] at hn
      omega
    · omega
  · rw [if_neg hnonneg] at hcast
    cases k with
    | zero => exact (castDigits_eq_some hcast).1 rfl
    | succ k =>
        rw [List.take_succ_cons, unsigned] at hcast
        obtain ⟨hne, hn⟩ := castDigits_eq_some hcast
        dsimp only at hne hn
        rw [if_pos rfl] at hn
        rcases ofDigitChars_take (-(n - 1)).toNat k with htake | hle
        · rw [htake, Nat.ofDigitChars_ten_toDigits] at hn
          omega
        · -- the number is 1, which has one digit
          have hone : (-(n - 1)).toNat = 1 := by omega
          rw [hone] at hne hn hle
          cases k with
          | zero => exact hne rfl
          | succ k =>
              have hdigits : (Nat.toDigits 10 1).take (k + 1) = Nat.toDigits 10 1 := by
                rw [show Nat.toDigits 10 1 = ['1'] from rfl, List.take_succ_cons, List.take_nil]
              rw [hdigits, Nat.ofDigitChars_ten_toDigits] at hle
              omega

end Digits

section Handler

/-- The calls that may fail. -/
inductive Call where
  | exist
  | openLock
  | lock
  | openSource
  | openTarget
  | unlock
  | close
  | remove
  deriving DecidableEq

/-- Which calls of a run fail, and how much is read and written before an error. -/
structure Faults where
  fails : Call → Bool
  readUpTo : Option ℕ := none
  writeUpTo : Option ℕ := none

/-- A program on the counter file. -/
abbrev CounterM : Type → Type :=
  Code (Option (List Char)) Thrown

variable (faults : Faults) (file : String)

/-- A call that throws when it fails. -/
def Faults.call (c : Call) (what : String) : CounterM Unit :=
  if faults.fails c then throw (.error ⟨500, what⟩) else pure ()

/-- What is read of a text. -/
def Faults.read (text : List Char) : List Char :=
  match faults.readUpTo with
  | none => text
  | some k => text.take k

/-- `slurp` -/
def slurp : CounterM (List Char) := do
  faults.call .openSource ("Could not open " ++ file)
  return faults.read ((← get).getD [])

/-- `write_file` -/
def writeFile (contents : List Char) : CounterM Unit := do
  faults.call .openTarget ("Could not open " ++ file)
  match faults.writeUpTo with
  | none => set (some contents)
  | some k =>
      set (some (contents.take k))
      throw (.error ⟨500, "Failed to close " ++ file⟩)

/-- The part of the `try` block after the number is read. -/
def store (value : ℤ) : CounterM Response := do
  writeFile faults file (castText value)
  faults.call .unlock ("failed to unlock " ++ file)
  faults.call .close ("failed to close " ++ file ++ " after locking")
  if value > 0 then
    return .continue
  else
    faults.call .remove ("boost::filesystem::remove: " ++ file)
    set (none : Option (List Char))
    return .success

/-- The `try` block of `do_decrement_global_counter_v1`. -/
def decrement : CounterM Response := do
  faults.call .openLock ("failed to open " ++ file ++ " for locking")
  faults.call .lock ("failed to get exclusive lock on " ++ file)
  match castInt (← slurp faults file) with
  | none => throw (.error ⟨500, "bad lexical cast"⟩)
  | some n => if n = -2 ^ 31 then throw .undefined else store faults file (n - 1)

/-- `do_decrement_global_counter_v1`, for the counter file that the argument names. -/
def doDecrementGlobalCounter (event : Option EventStatus) (arguments : List String) :
    CounterM Response := do
  liftM (checkEvent event : Except Thrown Unit)
  match arguments with
  | [] => throw (.error ⟨400, "missing counter id"⟩)
  | file :: _ =>
      faults.call .exist ("boost::filesystem::status: " ++ file)
      match ← get with
      | none => return .success
      | some _ => tryCatch (decrement faults file) fun e =>
          if e = .undefined then throw e else return .retry

/-- The runs of the job, one after the other until it is not retried. -/
def rerun (event : Option EventStatus) (arguments : List String) :
    List Faults → CounterM (Option Response)
  | [] => return none
  | faults :: rest => do
      match ← doDecrementGlobalCounter faults event arguments with
      | .retry => rerun event arguments rest
      | r => return some r

end Handler

section Kept

/-- A call after the opening for writing fails. -/
def Faults.AfterOpening (faults : Faults) (value : ℤ) : Prop :=
  faults.writeUpTo ≠ none ∨ faults.fails .unlock = true ∨ faults.fails .close = true ∨
    value ≤ 0 ∧ faults.fails .remove = true

/-- The run opens the file for writing. -/
structure Faults.Opens (faults : Faults) (text : List Char) (n : ℤ) : Prop where
  openLock : faults.fails .openLock = false
  lock : faults.fails .lock = false
  openSource : faults.fails .openSource = false
  value : castInt (faults.read text) = some n
  defined : n ≠ -2 ^ 31
  openTarget : faults.fails .openTarget = false

/-- The first call that fails is one after the opening for writing. -/
def Faults.Late (faults : Faults) (text : List Char) : Prop :=
  ∃ n, faults.Opens text n ∧ faults.AfterOpening (n - 1)

/-- What is returned and left by a run that does not fail. -/
def counted (value : ℤ) : Response × Option (List Char) :=
  if value > 0 then (.continue, some (castText value)) else (.success, none)

theorem counted_ne_retry (value : ℤ) : (counted value).1 ≠ .retry := by
  rw [counted]
  split
  · exact nofun
  · exact nofun

variable {faults : Faults} {file : String} {text : List Char} {s : Option (List Char)}

theorem outcome_call_of_fails {c : Call} (h : faults.fails c = true) (what : String) :
    outcome (faults.call c what) s = (.error (.error ⟨500, what⟩), s) := by
  rw [Faults.call, if_pos h]
  rfl

theorem outcome_call {c : Call} (h : faults.fails c = false) (what : String) :
    outcome (faults.call c what) s = (.ok (), s) := by
  rw [Faults.call, if_neg (by rw [h]; exact Bool.false_ne_true)]
  rfl

variable (file) in
/-- The file is written, with what follows. -/
theorem store_cases (h : faults.fails .openTarget = false) (value : ℤ) :
    (faults.AfterOpening value ∧ ∃ err k, outcome (store faults file value) s =
      (.error (.error err), some ((castText value).take k))) ∨
    ¬ faults.AfterOpening value ∧ outcome (store faults file value) s =
      (.ok (counted value).1, (counted value).2) := by
  have hwhole : ∀ {m : CounterM Response} {err : Error}, outcome m (some (castText value)) =
      (.error (.error err), some (castText value)) → ∃ err k, outcome m (some (castText value)) =
        (.error (.error err), some ((castText value).take k)) := by
    intro m err hm
    exact ⟨err, (castText value).length, by rw [List.take_length, hm]⟩
  rw [store, writeFile]
  cases hwrite : faults.writeUpTo with
  | some k =>
      refine .inl ⟨.inl (by rw [hwrite]; exact nofun), ⟨500, "Failed to close " ++ file⟩, k, ?_⟩
      rw [outcome_bind_error]
      rw [outcome_bind_ok (outcome_call h _)]
      rfl
  | none =>
      have hset : outcome (do
          faults.call .openTarget ("Could not open " ++ file)
          set (some (castText value))) s = (.ok (), some (castText value)) := by
        rw [outcome_bind_ok (outcome_call h _)]
        rfl
      rw [outcome_bind_ok hset]
      cases hunlock : faults.fails .unlock with
      | true =>
          exact .inl ⟨.inr (.inl hunlock),
            hwhole (outcome_bind_error (outcome_call_of_fails hunlock _))⟩
      | false =>
          rw [outcome_bind_ok (outcome_call hunlock _)]
          cases hclose : faults.fails .close with
          | true =>
              exact .inl ⟨.inr (.inr (.inl hclose)),
                hwhole (outcome_bind_error (outcome_call_of_fails hclose _))⟩
          | false =>
              rw [outcome_bind_ok (outcome_call hclose _), counted, Faults.AfterOpening, hwrite,
                hunlock, hclose]
              by_cases hpos : value > 0
              · rw [if_pos hpos, if_pos hpos]
                refine .inr ⟨?_, rfl⟩
                simp [Int.not_le.mpr hpos]
              · rw [if_neg hpos, if_neg hpos]
                cases hremove : faults.fails .remove with
                | true =>
                    refine .inl ⟨by simp [Int.not_lt.mp hpos], ?_⟩
                    exact hwhole (outcome_bind_error (outcome_call_of_fails hremove _))
                | false =>
                    refine .inr ⟨by simp, ?_⟩
                    rw [outcome_bind_ok (outcome_call hremove _)]
                    rfl

theorem outcome_slurp (h : faults.fails .openSource = false) :
    outcome (slurp faults file) (some text) = (.ok (faults.read text), some text) := by
  rw [slurp, outcome_bind_ok (outcome_call h _)]
  rfl

/-- A run that does not open the file for writing leaves it. -/
theorem decrement_of_not_opens (h : ∀ n, ¬ faults.Opens text n) :
    ∃ e, outcome (decrement faults file) (some text) = (.error e, some text) := by
  have hcall : ∀ c, faults.fails c = false ∨ faults.fails c = true := fun c =>
    Bool.eq_false_or_eq_true _ |>.symm
  rw [decrement]
  rcases hcall .openLock with hopenLock | hfails
  swap
  · exact ⟨_, outcome_bind_error (outcome_call_of_fails hfails _)⟩
  rw [outcome_bind_ok (outcome_call hopenLock _)]
  rcases hcall .lock with hlock | hfails
  swap
  · exact ⟨_, outcome_bind_error (outcome_call_of_fails hfails _)⟩
  rw [outcome_bind_ok (outcome_call hlock _)]
  rcases hcall .openSource with hopenSource | hfails
  swap
  · have hslurp : outcome (slurp faults file) (some text) =
        (.error (.error ⟨500, "Could not open " ++ file⟩), some text) :=
      outcome_bind_error (outcome_call_of_fails hfails _)
    exact ⟨_, outcome_bind_error hslurp⟩
  rw [outcome_bind_ok (outcome_slurp hopenSource)]
  cases hvalue : castInt (faults.read text) with
  | none => exact ⟨_, rfl⟩
  | some n =>
      by_cases hdefined : n = -2 ^ 31
      · exact ⟨.undefined, by dsimp only; rw [if_pos hdefined]; rfl⟩
      · dsimp only
        rw [if_neg hdefined]
        rcases hcall .openTarget with hopenTarget | hfails
        · exact absurd ⟨hopenLock, hlock, hopenSource, hvalue, hdefined, hopenTarget⟩ (h n)
        · have hwrite : outcome (writeFile faults file (castText (n - 1))) (some text) =
              (.error (.error ⟨500, "Could not open " ++ file⟩), some text) :=
            outcome_bind_error (outcome_call_of_fails hfails _)
          exact ⟨_, outcome_bind_error hwrite⟩

/-- A run of the `try` block fails before the file is opened for writing, or after that, or
it counts. -/
theorem decrement_cases (faults : Faults) (file : String) (text : List Char) :
    (¬ faults.Late text ∧ ∃ e, outcome (decrement faults file) (some text) =
      (.error e, some text)) ∨
    (faults.Late text ∧ ∃ n err k, castInt (faults.read text) = some n ∧
      outcome (decrement faults file) (some text) =
        (.error (.error err), some ((castText (n - 1)).take k))) ∨
    (¬ faults.Late text ∧ ∃ n, castInt (faults.read text) = some n ∧
      outcome (decrement faults file) (some text) =
        (.ok (counted (n - 1)).1, (counted (n - 1)).2)) := by
  by_cases h : ∃ n, faults.Opens text n
  · obtain ⟨n, hopens⟩ := h
    have hlate : faults.Late text ↔ faults.AfterOpening (n - 1) := by
      constructor
      · rintro ⟨n', hopens', hafter⟩
        have hn := hopens.value.symm.trans hopens'.value
        rw [Option.some.inj hn]
        exact hafter
      · exact fun hafter => ⟨n, hopens, hafter⟩
    have hdecrement : outcome (decrement faults file) (some text) =
        outcome (store faults file (n - 1)) (some text) := by
      rw [decrement, outcome_bind_ok (outcome_call hopens.openLock _),
        outcome_bind_ok (outcome_call hopens.lock _),
        outcome_bind_ok (outcome_slurp hopens.openSource), hopens.value]
      dsimp only
      rw [if_neg hopens.defined]
    rw [hdecrement, hlate]
    rcases store_cases file (s := some text) hopens.openTarget (n - 1) with
      ⟨hafter, err, k, hstore⟩ | ⟨hafter, hstore⟩
    · exact .inr (.inl ⟨hafter, n, err, k, hopens.value, hstore⟩)
    · exact .inr (.inr ⟨hafter, n, hopens.value, hstore⟩)
  · refine .inl ⟨?_, decrement_of_not_opens (not_exists.mp h)⟩
    rintro ⟨n, hopens, -⟩
    exact h ⟨n, hopens⟩

end Kept

section Retry

variable (event : Option EventStatus) (arguments : List String) (faults : Faults)

/-- A run that asks for a retry has left the counter file as it was. -/
def RetryKeeps (s : Option (List Char)) : Prop :=
  ∀ s', outcome (doDecrementGlobalCounter faults event arguments) s = (.ok .retry, s') → s' = s

/-- The handler gets to its `try` block and fails after the opening for writing. -/
def LateFault (s : Option (List Char)) : Prop :=
  (checkEvent event : Except Thrown Unit) = .ok () ∧ arguments ≠ [] ∧
    faults.fails .exist = false ∧ ∃ text ∈ s, faults.Late text

variable {event arguments faults}

/-- The handler ends in front of its `try` block, or it runs it. -/
theorem doDecrement_cases (event : Option EventStatus) (arguments : List String)
    (faults : Faults) (s : Option (List Char)) :
    (¬ LateFault event arguments faults s ∧
      ((∃ e, outcome (doDecrementGlobalCounter faults event arguments) s = (.error e, s)) ∨
        s = none ∧ outcome (doDecrementGlobalCounter faults event arguments) s =
          (.ok .success, s))) ∨
    ∃ text file, s = some text ∧ (LateFault event arguments faults s ↔ faults.Late text) ∧
      outcome (doDecrementGlobalCounter faults event arguments) s =
        outcome (tryCatch (decrement faults file) fun e =>
          if e = .undefined then throw e else return .retry) s := by
  unfold doDecrementGlobalCounter
  cases hevent : (checkEvent event : Except Thrown Unit) with
  | error e =>
      refine .inl ⟨?_, .inl ⟨_, outcome_bind_error (outcome_lift _ s)⟩⟩
      rintro ⟨hok, -⟩
      rw [hevent] at hok
      cases hok
  | ok u =>
      rw [outcome_bind_ok (outcome_lift _ s)]
      cases arguments with
      | nil => exact .inl ⟨fun h => h.2.1 rfl, .inl ⟨_, rfl⟩⟩
      | cons file rest =>
          cases hexist : faults.fails .exist with
          | true =>
              refine .inl ⟨?_, .inl ⟨_, outcome_bind_error (outcome_call_of_fails hexist _)⟩⟩
              rintro ⟨-, -, hok, -⟩
              rw [hexist] at hok
              cases hok
          | false =>
              dsimp only
              rw [outcome_bind_ok (outcome_call hexist _), outcome_bind_ok (outcome_get s)]
              cases s with
              | none =>
                  refine .inl ⟨?_, .inr ⟨rfl, rfl⟩⟩
                  rintro ⟨-, -, -, text, htext, -⟩
                  cases htext
              | some text =>
                  refine .inr ⟨text, file, rfl, ⟨?_, fun hlate => ?_⟩, rfl⟩
                  · rintro ⟨-, -, -, text', ⟨⟩, hlate⟩
                    exact hlate
                  · exact ⟨hevent, List.cons_ne_nil _ _, hexist, text, rfl, hlate⟩

theorem retryKeeps_iff (event : Option EventStatus) (arguments : List String) (faults : Faults)
    (s : Option (List Char)) :
    RetryKeeps event arguments faults s ↔ ¬ LateFault event arguments faults s := by
  rcases doDecrement_cases event arguments faults s with
    ⟨hlate, ⟨e, hrun⟩ | ⟨-, hrun⟩⟩ | ⟨text, file, rfl, hlate, hrun⟩
  · refine iff_of_true (fun s' h => ?_) hlate
    rw [hrun] at h
    cases h
  · refine iff_of_true (fun s' h => ?_) hlate
    rw [hrun] at h
    cases h
  · rw [hlate, RetryKeeps, hrun, outcome_tryCatch]
    rcases decrement_cases faults file text with ⟨hnot, e, hdec⟩ | ⟨hafter, n, err, k, hn, hdec⟩ |
      ⟨hnot, n, hn, hdec⟩
    · refine iff_of_true (fun s' h => ?_) hnot
      rw [hdec] at h
      dsimp only at h
      split at h
      · cases h
      · cases h
        rfl
    · refine iff_of_false (fun h => ?_) (not_not_intro hafter)
      have hkept : some ((castText (n - 1)).take k) = some text := h _ (by rw [hdec]; rfl)
      -- what is read of the file would be a part of the text of the number below
      have hread : ∃ k', faults.read text = (castText (n - 1)).take k' := by
        rw [← Option.some.inj hkept, Faults.read]
        cases faults.readUpTo with
        | none => exact ⟨k, rfl⟩
        | some k' => exact ⟨min k' k, List.take_take⟩
      obtain ⟨k', hk'⟩ := hread
      rw [hk'] at hn
      exact castInt_take_castText n k' hn
    · refine iff_of_true (fun s' h => ?_) hnot
      rw [hdec, Prod.mk.injEq] at h
      exact absurd (Except.ok.inj h.1) (counted_ne_retry (n - 1))

/-- A run that is not retried has counted the completion. -/
theorem counted_of_run {text : List Char} {n : ℤ} {r : Response} {s' : Option (List Char)}
    (hn : castInt text = some n) (hread : faults.readUpTo = none)
    (hlate : ¬ LateFault event arguments faults (some text)) (hr : r ≠ .retry)
    (h : outcome (doDecrementGlobalCounter faults event arguments) (some text) = (.ok r, s')) :
    (r, s') = counted (n - 1) := by
  rcases doDecrement_cases event arguments faults (some text) with
    ⟨-, ⟨e, hrun⟩ | ⟨hnone, -⟩⟩ | ⟨text', file, ⟨⟩, hiff, hrun⟩
  · rw [hrun] at h
    cases h
  · cases hnone
  · rw [hrun, outcome_tryCatch] at h
    rcases decrement_cases faults file text with ⟨-, e, hdec⟩ | ⟨hafter, -⟩ | ⟨-, n', hn', hdec⟩
    · rw [hdec] at h
      dsimp only at h
      split at h
      · cases h
      · cases h
        exact absurd rfl hr
    · exact absurd (hiff.mpr hafter) hlate
    · rw [hdec, Prod.mk.injEq] at h
      obtain ⟨hresponse, rfl⟩ := h
      rw [Faults.read, hread, hn] at hn'
      cases hn'
      exact Prod.ext (Except.ok.inj hresponse).symm rfl

theorem counted_of_rerun {runs : List Faults} {text : List Char} {n : ℤ} {r : Response}
    {s' : Option (List Char)} (hn : castInt text = some n)
    (hruns : ∀ faults ∈ runs, faults.readUpTo = none ∧
      ¬ LateFault event arguments faults (some text))
    (h : outcome (rerun event arguments runs) (some text) = (.ok (some r), s')) :
    (r, s') = counted (n - 1) := by
  induction runs with
  | nil => cases h
  | cons faults rest ih =>
      obtain ⟨hread, hlate⟩ := hruns faults List.mem_cons_self
      rw [rerun] at h
      obtain ⟨r₁, s₁, hrun, hrest⟩ := exists_of_bind h
      by_cases hretry : r₁ = .retry
      · -- the file is as it was, and the job starts again
        subst hretry
        obtain rfl := (retryKeeps_iff event arguments faults _).mpr hlate _ hrun
        exact ih (fun f hf => hruns f (List.mem_cons_of_mem _ hf)) hrest
      · have hcounted := counted_of_run hn hread hlate hretry hrun
        cases r₁ with
        | retry => exact absurd rfl hretry
        | success | error | «continue» =>
            cases hrest
            exact hcounted

/-- For every event, every text of the counter file and every pattern of failing calls, a
retried run keeps the file exactly when its first failing call is not one after the opening
for writing. Runs of this kind that read the whole file count once, however often the job is
retried. -/
theorem retry_keeps_iff (event : Option EventStatus) (arguments : List String) :
    (∀ (faults : Faults) (s : Option (List Char)),
      RetryKeeps event arguments faults s ↔ ¬ LateFault event arguments faults s) ∧
    ∀ (runs : List Faults) (text : List Char) (n : ℤ) (r : Response)
      (s' : Option (List Char)), castInt text = some n →
      (∀ faults ∈ runs, faults.readUpTo = none ∧
        ¬ LateFault event arguments faults (some text)) →
      outcome (rerun event arguments runs) (some text) = (.ok (some r), s') →
      (r, s') = counted (n - 1) :=
  ⟨retryKeeps_iff event arguments, fun _ _ _ _ _ hn hruns h => counted_of_rerun hn hruns h⟩

/-- The lock is not available. -/
def locked : Faults where
  fails c := c = .lock

/-- The disk is full: nothing of the number is written. -/
def diskFull : Faults where
  fails _ := false
  writeUpTo := some 0

def working : Faults where
  fails _ := false

/-- A run that is retried because of the lock, and one that counts. -/
theorem counted_locked :
    (∀ faults ∈ [locked, working], faults.readUpTo = none ∧
      ¬ LateFault none ["i-1"] faults (some ['2'])) ∧
    outcome (rerun none ["i-1"] [locked, working]) (some ['2']) =
      (.ok (some .continue), some ['1']) ∧ (Response.continue, some ['1']) = counted (2 - 1) := by
  have hruns : ∀ faults ∈ [locked, working], faults.readUpTo = none ∧
      ¬ LateFault none ["i-1"] faults (some ['2']) := by
    intro faults hmem
    rcases List.mem_pair.mp hmem with rfl | rfl
    · refine ⟨rfl, ?_⟩
      rintro ⟨-, -, -, text, -, n, hopens, -⟩
      cases hopens.lock
    · refine ⟨rfl, ?_⟩
      rintro ⟨-, -, -, text, -, n, hopens, hafter⟩
      simp [Faults.AfterOpening, working] at hafter
  have hrun : outcome (rerun none ["i-1"] [locked, working]) (some ['2']) =
      (.ok (some .continue), some ['1']) := rfl
  exact ⟨hruns, hrun, (retry_keeps_iff none _).2 _ _ _ _ _ rfl hruns hrun⟩

/-- The counter is empty after a write that failed, and the job is retried. -/
theorem not_retry_keeps :
    ¬ ∀ (event : Option EventStatus) (arguments : List String) (faults : Faults)
      (s : Option (List Char)), RetryKeeps event arguments faults s := by
  intro h
  have hrun : outcome (doDecrementGlobalCounter diskFull none ["i-1"]) (some ['2']) =
      (.ok .retry, some []) := rfl
  exact nomatch h none ["i-1"] diskFull (some ['2']) _ hrun

end Retry

end Counter

end Gearbox
