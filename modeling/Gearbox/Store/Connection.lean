import Gearbox.Refinement.Retry
import Mathlib.Algebra.Order.Ring.Int
import Mathlib.Data.Nat.Find
import Mathlib.Logic.Function.Basic
import Mathlib.Order.Bounds.Defs

/-!
# Connections to databases

A connection is registered under a name, and its session is opened when it is asked for. A session
is tested before it is handed out again. If the server has dropped it then the caller gets an
exception, and only the next call opens a new one, so that the statements of a transaction do not
end up in two sessions. A caller that wants to be connected again asks until there is a session.

A session is the number of the attempt that has opened it. `Trace` is what a caller may see of the
sessions of one name, and every run keeps to it.
-/

namespace Gearbox

namespace Store

open Refinement

/-- What `db_init` reads of its configuration. -/
structure Config where
  dbType : Option String := none
  dbUser : Option String := none
  dbPass : Option String := none
  dbName : Option String := none
  dbHost : Option String := none
  dbSock : Option String := none
  dbPort : Option ℤ := none

/-- `Connection::Private` -/
structure Connection where
  type : String
  dbname : String := "test"
  user : String := "root"
  pass : String := ""
  host : String := "localhost"
  port : String := ""
  sock : String := ""
  sess : Option ℕ := none

/-- `s_conns`, `s_last_connname`, the number of attempts to open a session, and the sessions that
the server has dropped. -/
structure World where
  conns : String → Option Connection := fun _ => none
  lastConnname : String := ""
  attempts : ℕ := 0
  lost : ℕ → Bool := fun _ => false

/-- The exceptions, and `late` for a loop that has not ended within its bound. -/
inductive Err where
  | notRegistered (name : String)
  | wentAway
  | refused
  | late
  deriving DecidableEq

section Source

/-- `Connection::reg` -/
def reg (name type : String) (w : World) : World :=
  match w.conns name with
  | some _ => w
  | none => { w with
      lastConnname := name
      conns := Function.update w.conns name (some { type := type }) }

/-- `Connection::set_port` with a number. -/
def setPort (port : ℤ) (c : Connection) : Connection :=
  if port ≤ 0 then c else { c with port := toString port }

/-- The setters that `db_init` calls. -/
def configure (cfg : Config) (c : Connection) : Connection :=
  setPort (cfg.dbPort.getD 0) { c with
    user := cfg.dbUser.getD ""
    pass := cfg.dbPass.getD ""
    dbname := cfg.dbName.getD ""
    host := cfg.dbHost.getD ""
    sock := cfg.dbSock.getD "" }

/-- The name of a connection that is not given one. -/
def connName (cfg : Config) (name : String) : String :=
  if name = "" then
    cfg.dbUser.getD "" ++ ":" ++ cfg.dbType.getD "mysql" ++ ":" ++ cfg.dbName.getD "" ++ ":" ++
      cfg.dbHost.getD "" ++ ":" ++ cfg.dbSock.getD "" ++ ":" ++ toString (cfg.dbPort.getD 0)
  else name

/-- `db_init` -/
def dbInit (cfg : Config) (name : String) (w : World) : World :=
  let cn := connName cfg name
  let w := reg cn (cfg.dbType.getD "mysql") w
  { w with conns := Function.update w.conns cn ((w.conns cn).map (configure cfg)) }

variable (accepts : ℕ → Bool)

/-- A change of the session of a connection. -/
def setSess (name : String) (sess : Option ℕ) (w : World) : World :=
  { w with
    conns := Function.update w.conns name
      ((w.conns name).map fun c => { c with sess := sess }) }

/-- `Connection::get` and `Connection::get_session`; the server accepts some of the attempts. -/
def getSession (name : String) (test : Bool) : Code World Err ℕ := do
  let w ← get
  match w.conns name with
  | none => throw (.notRegistered name)
  | some c =>
    match c.sess with
    | some i =>
      if test && w.lost i then do
        modify (setSess name none)
        throw .wentAway
      else pure i
    | none => do
      modify fun w => { w with attempts := w.attempts + 1 }
      if accepts w.attempts then do
        modify (setSess name (some w.attempts))
        pure w.attempts
      else throw .refused

/-- `getconn` with a name. -/
def getconn (name : String) : Code World Err ℕ := do
  modify fun w => { w with lastConnname := name }
  getSession accepts name true

/-- `getconn` with a name and `auto_reconnect`, for a number of rounds. -/
def getconnAuto (name : String) : ℕ → Code World Err ℕ :=
  retry (fun _ => true) .late (getconn accepts name)

end Source

section Runs

/-- What happens: a connection is configured, it is asked for, and the server drops a session. -/
inductive Event where
  | init (cfg : Config) (name : String)
  | call (name : String)
  | drop (i : ℕ)

/-- A run, with what the calls end with. -/
def run (accepts : ℕ → Bool) : List Event → World → List (String × Except Err ℕ)
  | [], _ => []
  | .init cfg name :: events, w => run accepts events (dbInit cfg name w)
  | .call name :: events, w =>
    let (r, w) := outcome (getconn accepts name) w
    (name, r) :: run accepts events w
  | .drop i :: events, w => run accepts events { w with lost := Function.update w.lost i true }

/-- What the calls with one name end with. -/
def resultsOf (name : String) (results : List (String × Except Err ℕ)) : List (Except Err ℕ) :=
  (results.filter (·.1 = name)).map Prod.snd

/-- What the calls with one name may end with, after the session that is open, where the number of
a new session has a lower bound. -/
inductive Trace : Option ℕ → ℕ → List (Except Err ℕ) → Prop where
  | nil {sess : Option ℕ} {n : ℕ} : Trace sess n []
  | same {i n : ℕ} {rs : List (Except Err ℕ)} (rest : Trace (some i) n rs) :
      Trace (some i) n (.ok i :: rs)
  | lost {i n : ℕ} {e : Err} {rs : List (Except Err ℕ)} (rest : Trace none n rs) :
      Trace (some i) n (.error e :: rs)
  | refused {n : ℕ} {e : Err} {rs : List (Except Err ℕ)} (rest : Trace none n rs) :
      Trace none n (.error e :: rs)
  | opened {j n : ℕ} {rs : List (Except Err ℕ)} (le : n ≤ j)
      (rest : Trace (some j) (j + 1) rs) : Trace none n (.ok j :: rs)

end Runs

section Trace

variable {sess : Option ℕ} {i j n m : ℕ} {rs mid post : List (Except Err ℕ)}

theorem Trace.mono (h : Trace sess n rs) (hm : m ≤ n) : Trace sess m rs := by
  induction h generalizing m with
  | nil => exact .nil
  | same _ ih => exact .same (ih hm)
  | lost _ ih => exact .lost (ih hm)
  | refused _ ih => exact .refused (ih hm)
  | opened le rest _ => exact .opened (Nat.le_trans hm le) rest

/-- The session that a call returns is the one that is open, or a new one. -/
theorem Trace.bounds (h : Trace sess n (mid ++ .ok j :: post))
    (hsess : ∀ i, sess = some i → i < n) :
    (∀ i, sess = some i → i ≤ j ∧ (i = j ↔ ∀ r ∈ mid, ∃ k, r = .ok k)) ∧
      (sess = none → n ≤ j) := by
  induction mid generalizing sess n with
  | nil =>
      have hall : ∀ r ∈ ([] : List (Except Err ℕ)), ∃ k, r = .ok k := by
        intro r hr
        cases hr
      cases h with
      | same rest =>
          refine ⟨?_, ?_⟩
          · rintro i ⟨⟩
            exact ⟨Nat.le_refl j, iff_of_true rfl hall⟩
          · rintro ⟨⟩
      | opened le rest =>
          refine ⟨?_, fun _ => le⟩
          rintro i ⟨⟩
  | cons r mid ih =>
      rw [List.cons_append] at h
      cases h with
      | @same i n rs rest =>
          obtain ⟨hsome, -⟩ := ih rest hsess
          refine ⟨?_, ?_⟩
          · rintro i' ⟨⟩
            obtain ⟨hle, hiff⟩ := hsome i rfl
            refine ⟨hle, hiff.trans ?_⟩
            rw [List.forall_mem_cons, and_iff_right ⟨i, rfl⟩]
          · rintro ⟨⟩
      | @lost i n e rs rest =>
          obtain ⟨-, hnone⟩ := ih rest (by rintro i' ⟨⟩)
          have hlt : i < j := Nat.lt_of_lt_of_le (hsess i rfl) (hnone rfl)
          refine ⟨?_, ?_⟩
          · rintro i' ⟨⟩
            refine ⟨Nat.le_of_lt hlt, iff_of_false (Nat.ne_of_lt hlt) ?_⟩
            intro hall
            obtain ⟨k, hk⟩ := hall _ List.mem_cons_self
            cases hk
          · rintro ⟨⟩
      | refused rest =>
          obtain ⟨-, hnone⟩ := ih rest (by rintro i' ⟨⟩)
          refine ⟨?_, fun _ => hnone rfl⟩
          rintro i' ⟨⟩
      | @opened k n rs le rest =>
          obtain ⟨hsome, -⟩ := ih rest (by rintro i' ⟨⟩; exact Nat.lt_succ_self _)
          refine ⟨?_, fun _ => Nat.le_trans le (hsome k rfl).1⟩
          rintro i' ⟨⟩

end Trace

/-- The session that is open for a name. -/
def World.sessOf (w : World) (name : String) : Option ℕ :=
  (w.conns name).bind fun c => c.sess

section Step

variable {accepts : ℕ → Bool} {w : World} {name : String} {c : Connection} {i : ℕ}

theorem sessOf_of_conns (hc : w.conns name = some c) : w.sessOf name = c.sess := by
  rw [World.sessOf, hc, Option.bind_some]

theorem sessOf_setSess (hc : w.conns name = some c) (sess : Option ℕ) :
    (setSess name sess w).sessOf = Function.update w.sessOf name sess := by
  funext other
  rw [setSess, World.sessOf]
  dsimp only
  by_cases heq : other = name
  · subst heq
    rw [Function.update_self, Function.update_self, hc]
    rfl
  · rw [Function.update_of_ne heq, Function.update_of_ne heq]
    rfl

theorem sess_configure (cfg : Config) (c : Connection) : (configure cfg c).sess = c.sess := by
  rw [configure, setPort]
  split
  · rfl
  · rfl

/-- A configuration leaves the sessions alone. -/
theorem sessOf_dbInit (cfg : Config) (name : String) (w : World) :
    (dbInit cfg name w).sessOf = w.sessOf ∧ (dbInit cfg name w).attempts = w.attempts := by
  have hreg : (reg (connName cfg name) (cfg.dbType.getD "mysql") w).sessOf = w.sessOf ∧
      (reg (connName cfg name) (cfg.dbType.getD "mysql") w).attempts = w.attempts := by
    rw [reg]
    cases hc : w.conns (connName cfg name) with
    | some c => exact ⟨rfl, rfl⟩
    | none =>
        refine ⟨?_, rfl⟩
        funext other
        rw [World.sessOf, World.sessOf]
        dsimp only
        by_cases heq : other = connName cfg name
        · subst heq
          rw [Function.update_self, hc]
          rfl
        · rw [Function.update_of_ne heq]
  refine ⟨?_, hreg.2⟩
  rw [← hreg.1, dbInit]
  funext other
  rw [World.sessOf, World.sessOf]
  dsimp only
  by_cases heq : other = connName cfg name
  · subst heq
    rw [Function.update_self]
    cases (reg (connName cfg name) (cfg.dbType.getD "mysql") w).conns (connName cfg name) with
    | none => rfl
    | some c => exact sess_configure cfg c
  · rw [Function.update_of_ne heq]

/-- What a call does to the session of its name. -/
inductive Step (name : String) (w : World) : Except Err ℕ → World → Prop where
  | same {i : ℕ} {w' : World} (sess : w.sessOf name = some i) (sessOf : w'.sessOf = w.sessOf)
      (attempts : w'.attempts = w.attempts) : Step name w (.ok i) w'
  | lost {i : ℕ} {e : Err} {w' : World} (sess : w.sessOf name = some i)
      (sessOf : w'.sessOf = Function.update w.sessOf name none)
      (attempts : w'.attempts = w.attempts) : Step name w (.error e) w'
  | refused {e : Err} {w' : World} (sess : w.sessOf name = none) (sessOf : w'.sessOf = w.sessOf)
      (attempts : w.attempts ≤ w'.attempts) : Step name w (.error e) w'
  | opened {w' : World} (sess : w.sessOf name = none)
      (sessOf : w'.sessOf = Function.update w.sessOf name (some w.attempts))
      (attempts : w'.attempts = w.attempts + 1) : Step name w (.ok w.attempts) w'

theorem outcome_getconn_none (accepts : ℕ → Bool) (hc : w.conns name = none) :
    outcome (getconn accepts name) w =
      (.error (.notRegistered name), { w with lastConnname := name }) := by
  rw [getconn, outcome_bind_ok (outcome_modify _ w), getSession,
    outcome_bind_ok (outcome_get _)]
  dsimp only
  rw [hc]
  rfl

theorem outcome_getconn_some (accepts : ℕ → Bool) (hc : w.conns name = some c)
    (hsess : c.sess = some i) :
    outcome (getconn accepts name) w =
      if w.lost i then (.error .wentAway, setSess name none { w with lastConnname := name })
      else (.ok i, { w with lastConnname := name }) := by
  rw [getconn, outcome_bind_ok (outcome_modify _ w), getSession,
    outcome_bind_ok (outcome_get _)]
  dsimp only
  rw [hc]
  dsimp only
  rw [hsess]
  dsimp only
  rw [Bool.true_and]
  split
  · rfl
  · rfl

theorem outcome_getconn_closed (accepts : ℕ → Bool) (hc : w.conns name = some c)
    (hsess : c.sess = none) :
    outcome (getconn accepts name) w =
      if accepts w.attempts then (.ok w.attempts, setSess name (some w.attempts)
        { w with lastConnname := name, attempts := w.attempts + 1 })
      else (.error .refused, { w with lastConnname := name, attempts := w.attempts + 1 }) := by
  rw [getconn, outcome_bind_ok (outcome_modify _ w), getSession,
    outcome_bind_ok (outcome_get _)]
  dsimp only
  rw [hc]
  dsimp only
  rw [hsess]
  dsimp only
  rw [outcome_bind_ok (outcome_modify _ _)]
  split
  · rfl
  · rfl

/-- A call. -/
theorem step_getconn (accepts : ℕ → Bool) (name : String) (w : World) :
    Step name w (outcome (getconn accepts name) w).1 (outcome (getconn accepts name) w).2 := by
  cases hc : w.conns name with
  | none =>
      rw [outcome_getconn_none accepts hc]
      refine .refused ?_ rfl (Nat.le_refl _)
      rw [World.sessOf, hc, Option.bind_none]
  | some c =>
      have hc' : ({ w with lastConnname := name } : World).conns name = some c := hc
      cases hsess : c.sess with
      | some i =>
          have hsessOf := (sessOf_of_conns hc).trans hsess
          rw [outcome_getconn_some accepts hc hsess]
          split
          · exact .lost hsessOf (sessOf_setSess hc' none) rfl
          · exact .same hsessOf rfl rfl
      | none =>
          have hsessOf := (sessOf_of_conns hc).trans hsess
          have hc'' : ({ w with lastConnname := name, attempts := w.attempts + 1 } :
            World).conns name = some c := hc
          rw [outcome_getconn_closed accepts hc hsess]
          split
          · exact .opened hsessOf (sessOf_setSess hc'' _) rfl
          · exact .refused hsessOf rfl (Nat.le_succ _)

end Step

/-- A session is older than the next attempt, and belongs to one name. -/
structure Ordered (w : World) : Prop where
  lt : ∀ name i, w.sessOf name = some i → i < w.attempts
  inj : ∀ name name' i, w.sessOf name = some i → w.sessOf name' = some i → name = name'

section Run

variable {accepts : ℕ → Bool} {w w' : World} {name : String} {r : Except Err ℕ}
  {events : List Event}

theorem Ordered.of_eq (h : Ordered w) (hsess : w'.sessOf = w.sessOf)
    (hattempts : w.attempts ≤ w'.attempts) : Ordered w' where
  lt name i hi := Nat.lt_of_lt_of_le (h.lt name i (hsess ▸ hi)) hattempts
  inj name name' i hi hi' := h.inj name name' i (hsess ▸ hi) (hsess ▸ hi')

theorem Ordered.step (h : Ordered w) (hstep : Step name w r w') : Ordered w' := by
  cases hstep with
  | same sess sessOf attempts => exact h.of_eq sessOf (Nat.le_of_eq attempts.symm)
  | refused sess sessOf attempts => exact h.of_eq sessOf attempts
  | lost sess sessOf attempts =>
      have hold : ∀ other i, w'.sessOf other = some i → w.sessOf other = some i := by
        intro other i hi
        rw [sessOf] at hi
        by_cases heq : other = name
        · rw [heq, Function.update_self] at hi
          cases hi
        · rwa [Function.update_of_ne heq] at hi
      exact ⟨fun other i hi => attempts ▸ h.lt other i (hold other i hi),
        fun other other' i hi hi' => h.inj other other' i (hold _ i hi) (hold _ i hi')⟩
  | opened sess sessOf attempts =>
      have hcases : ∀ other i, w'.sessOf other = some i →
          other = name ∧ i = w.attempts ∨ i < w.attempts ∧ w.sessOf other = some i := by
        intro other i hi
        rw [sessOf] at hi
        by_cases heq : other = name
        · rw [heq, Function.update_self] at hi
          exact Or.inl ⟨heq, (Option.some.inj hi).symm⟩
        · rw [Function.update_of_ne heq] at hi
          exact Or.inr ⟨h.lt other i hi, hi⟩
      constructor
      · intro other i hi
        rcases hcases other i hi with ⟨-, rfl⟩ | ⟨hlt, -⟩
        · omega
        · omega
      · intro other other' i hi hi'
        rcases hcases other i hi with ⟨rfl, rfl⟩ | ⟨hlt, hold⟩
        · rcases hcases other' _ hi' with ⟨rfl, -⟩ | ⟨hlt', -⟩
          · rfl
          · exact absurd hlt' (Nat.lt_irrefl _)
        · rcases hcases other' i hi' with ⟨-, rfl⟩ | ⟨-, hold'⟩
          · exact absurd hlt (Nat.lt_irrefl _)
          · exact h.inj other other' i hold hold'

theorem resultsOf_cons_self (name : String) (r : Except Err ℕ)
    (results : List (String × Except Err ℕ)) :
    resultsOf name ((name, r) :: results) = r :: resultsOf name results := by
  rw [resultsOf, List.filter_cons_of_pos (by simp)]
  rfl

theorem resultsOf_cons_of_ne {other : String} (hne : other ≠ name) (r : Except Err ℕ)
    (results : List (String × Except Err ℕ)) :
    resultsOf name ((other, r) :: results) = resultsOf name results := by
  rw [resultsOf, List.filter_cons_of_neg (by simpa using hne)]
  rfl

/-- Every run keeps to what a caller may see. -/
theorem Ordered.trace (h : Ordered w) (accepts : ℕ → Bool) (events : List Event) (name : String) :
    Trace (w.sessOf name) w.attempts (resultsOf name (run accepts events w)) := by
  induction events generalizing w with
  | nil => exact .nil
  | cons ev events ih =>
      cases ev with
      | init cfg cn =>
          obtain ⟨hsess, hattempts⟩ := sessOf_dbInit cfg cn w
          have hrest := ih (h.of_eq hsess (Nat.le_of_eq hattempts.symm))
          rwa [hsess, hattempts] at hrest
      | drop i => exact ih (w := { w with lost := Function.update w.lost i true }) ⟨h.lt, h.inj⟩
      | call other =>
          have hstep := step_getconn accepts other w
          have hrest := ih (h.step hstep)
          rw [run]
          dsimp only
          generalize (outcome (getconn accepts other) w).1 = r at hstep hrest ⊢
          generalize (outcome (getconn accepts other) w).2 = w' at hstep hrest ⊢
          by_cases heq : other = name
          · subst heq
            rw [resultsOf_cons_self]
            cases hstep with
            | same sess sessOf attempts =>
                rw [sessOf, sess, attempts] at hrest
                rw [sess]
                exact .same hrest
            | lost sess sessOf attempts =>
                rw [sessOf, Function.update_self, attempts] at hrest
                rw [sess]
                exact .lost hrest
            | refused sess sessOf attempts =>
                rw [sessOf, sess] at hrest
                rw [sess]
                exact .refused (hrest.mono attempts)
            | opened sess sessOf attempts =>
                rw [sessOf, Function.update_self, attempts] at hrest
                rw [sess]
                exact .opened (Nat.le_refl _) hrest
          · rw [resultsOf_cons_of_ne heq]
            have hne : name ≠ other := fun hname => heq hname.symm
            cases hstep with
            | same sess sessOf attempts => rwa [sessOf, attempts] at hrest
            | lost sess sessOf attempts =>
                rwa [sessOf, Function.update_of_ne hne, attempts] at hrest
            | refused sess sessOf attempts =>
                rw [sessOf] at hrest
                exact hrest.mono attempts
            | opened sess sessOf attempts =>
                rw [sessOf, Function.update_of_ne hne, attempts] at hrest
                exact hrest.mono (Nat.le_succ _)

/-- What follows a call that has returned a session. -/
theorem Trace.after {sess : Option ℕ} {n i : ℕ} {pre rs : List (Except Err ℕ)}
    (h : Trace sess n (pre ++ .ok i :: rs)) (hsess : ∀ i, sess = some i → i < n) :
    ∃ m, i < m ∧ Trace (some i) m rs := by
  induction pre generalizing sess n with
  | nil =>
      cases h with
      | same rest => exact ⟨n, hsess i rfl, rest⟩
      | opened le rest => exact ⟨i + 1, Nat.lt_succ_self i, rest⟩
  | cons r pre ih =>
      rw [List.cons_append] at h
      cases h with
      | same rest => exact ih rest hsess
      | lost rest => exact ih rest (by rintro i' ⟨⟩)
      | refused rest => exact ih rest (by rintro i' ⟨⟩)
      | opened le rest => exact ih rest (by rintro i' ⟨⟩; exact Nat.lt_succ_self _)

theorem ordered_empty : Ordered {} where
  lt _ _ h := by cases h
  inj _ _ _ h := by cases h

/-- The session of a call is the one that is open, or it is new. -/
theorem Trace.eq_or_le {sess : Option ℕ} {n j : ℕ} {rs : List (Except Err ℕ)}
    (h : Trace sess n rs) (hj : .ok j ∈ rs) : sess = some j ∨ n ≤ j := by
  induction h with
  | nil => cases hj
  | @same i n rs rest ih =>
      rcases List.mem_cons.mp hj with heq | hj
      · cases heq
        exact Or.inl rfl
      · exact ih hj
  | lost rest ih =>
      rcases List.mem_cons.mp hj with heq | hj
      · cases heq
      · rcases ih hj with heq | hle
        · cases heq
        · exact Or.inr hle
  | refused rest ih =>
      rcases List.mem_cons.mp hj with heq | hj
      · cases heq
      · rcases ih hj with heq | hle
        · cases heq
        · exact Or.inr hle
  | @opened k n rs le rest ih =>
      refine Or.inr ?_
      rcases List.mem_cons.mp hj with heq | hj
      · cases heq
        exact le
      · rcases ih hj with heq | hle
        · cases heq
          exact le
        · omega

theorem mem_resultsOf {results : List (String × Except Err ℕ)} :
    r ∈ resultsOf name results ↔ (name, r) ∈ results := by
  rw [resultsOf, List.mem_map]
  constructor
  · rintro ⟨⟨other, r'⟩, hmem, rfl⟩
    rw [List.mem_filter, decide_eq_true_iff] at hmem
    obtain ⟨hmem, rfl⟩ := hmem
    exact hmem
  · intro hmem
    exact ⟨(name, r), List.mem_filter.mpr ⟨hmem, decide_eq_true rfl⟩, rfl⟩

theorem Ordered.run_distinct (h : Ordered w) {name' : String} {i : ℕ}
    (hi : (name, .ok i) ∈ run accepts events w) (hi' : (name', .ok i) ∈ run accepts events w) :
    name = name' := by
  induction events generalizing w name name' with
  | nil => cases hi
  | cons ev events ih =>
      cases ev with
      | init cfg cn =>
          obtain ⟨hsess, hattempts⟩ := sessOf_dbInit cfg cn w
          exact ih (h.of_eq hsess (Nat.le_of_eq hattempts.symm)) hi hi'
      | drop k =>
          exact ih (w := { w with lost := Function.update w.lost k true }) ⟨h.lt, h.inj⟩ hi hi'
      | call other =>
          have hstep := step_getconn accepts other w
          have hordered := h.step hstep
          -- what is returned is open afterwards, and another name can only get a newer session
          have hfirst : ∀ {name}, (outcome (getconn accepts other) w).1 = .ok i →
              (name, .ok i) ∈ run accepts events (outcome (getconn accepts other) w).2 →
              other = name := by
            intro name hok hmem
            have hopen : (outcome (getconn accepts other) w).2.sessOf other = some i := by
              rw [hok] at hstep
              cases hstep with
              | same sess sessOf attempts => rw [sessOf, sess]
              | opened sess sessOf attempts => rw [sessOf, Function.update_self]
            rcases (hordered.trace accepts events name).eq_or_le (mem_resultsOf.mpr hmem) with
              heq | hle
            · exact hordered.inj _ _ _ hopen heq
            · exact absurd (hordered.lt _ _ hopen) (Nat.not_lt.mpr hle)
          rw [run] at hi hi'
          dsimp only at hi hi'
          rcases List.mem_cons.mp hi with heq | hi
          · obtain ⟨rfl, hok⟩ := Prod.mk.inj heq
            rcases List.mem_cons.mp hi' with heq' | hi'
            · exact (Prod.mk.inj heq').1.symm
            · exact hfirst hok.symm hi'
          · rcases List.mem_cons.mp hi' with heq' | hi'
            · obtain ⟨rfl, hok⟩ := Prod.mk.inj heq'
              exact (hfirst hok.symm hi).symm
            · exact ih hordered hi hi'

/-- Of two calls with the same name that return a session, the later one returns the same session
if no call between them has failed, and a newer one otherwise. No call with another name ever
returns it. -/
theorem run_sessions (accepts : ℕ → Bool) (events : List Event) (name : String)
    {pre mid post : List (Except Err ℕ)} {i j : ℕ}
    (h : resultsOf name (run accepts events {}) = pre ++ .ok i :: (mid ++ .ok j :: post)) :
    i ≤ j ∧ (i = j ↔ ∀ r ∈ mid, ∃ k, r = .ok k) ∧
      ∀ name', (name', .ok i) ∈ run accepts events {} → name = name' := by
  have hmem : (name, .ok i) ∈ run accepts events {} := by
    rw [← mem_resultsOf, h, List.mem_append]
    exact Or.inr List.mem_cons_self
  have htrace := ordered_empty.trace accepts events name
  rw [h] at htrace
  obtain ⟨m, hm, hrest⟩ := htrace.after (by rintro i' ⟨⟩)
  obtain ⟨hle, hiff⟩ := (hrest.bounds (by rintro i' ⟨⟩; exact hm)).1 i rfl
  exact ⟨hle, hiff, fun name' hmem' => ordered_empty.run_distinct hmem hmem'⟩

theorem run_sessions_dropped :
    1 ≤ 3 ∧ (1 = 3 ↔ ∀ r ∈ [(.ok 1 : Except Err ℕ), .error .wentAway, .error .refused],
      ∃ k, r = .ok k) ∧
      ∀ name', (name', .ok 1) ∈ run (fun n => n ≠ 0 && n ≠ 2)
        [.init {} "status", .call "delay", .call "status", .call "status", .call "status",
          .drop 1, .call "status", .call "status", .call "status"] {} → "status" = name' := by
  have hrun : resultsOf "status" (run (fun n => n ≠ 0 && n ≠ 2)
      [.init {} "status", .call "delay", .call "status", .call "status", .call "status", .drop 1,
        .call "status", .call "status", .call "status"] {}) =
      [.error .refused] ++ .ok 1 :: ([.ok 1, .error .wentAway, .error .refused] ++ .ok 3 :: []) :=
    rfl
  exact run_sessions _ _ "status" hrun

end Run

section Auto

variable {accepts : ℕ → Bool} {w : World} {name : String} {c : Connection} {i n : ℕ}

/-- The rounds while there is no session. -/
theorem halts_closed {k : ℕ} (hc : w.conns name = some c) (hsess : c.sess = none)
    (hn : IsLeast {n | w.attempts ≤ n ∧ accepts n = true} n) (hk : n = w.attempts + k) :
    ∃ w', Halts .late (getconnAuto accepts name) w (.ok n) w' := by
  induction k generalizing w with
  | zero =>
      have hn' : n = w.attempts := hk
      have haccepts : accepts w.attempts = true := hn' ▸ hn.1.2
      have hround := outcome_getconn_closed accepts hc hsess
      rw [if_pos haccepts, ← hn'] at hround
      exact ⟨_, halts_retry_ok hround⟩
  | succ k ih =>
      have haccepts : ¬ accepts w.attempts = true := by
        intro haccepts
        have hle := hn.2 ⟨Nat.le_refl _, haccepts⟩
        omega
      have hround := outcome_getconn_closed accepts hc hsess
      rw [if_neg haccepts] at hround
      have hleast : IsLeast {n | w.attempts + 1 ≤ n ∧ accepts n = true} n := by
        refine ⟨⟨by omega, hn.1.2⟩, fun m hm => hn.2 ⟨by have := hm.1; omega, hm.2⟩⟩
      obtain ⟨w', hw'⟩ := ih
        (w := { w with lastConnname := name, attempts := w.attempts + 1 }) hc hleast
        (by dsimp only; omega)
      exact ⟨w', (halts_retry_caught hround rfl).mpr hw'⟩

/-- The loop ends with the session that is open, or with the first attempt that is accepted. -/
theorem halts_getconnAuto (accepts : ℕ → Bool) (hc : w.conns name = some c)
    (hn : c.sess = some n ∧ w.lost n = false ∨ (∀ i, c.sess = some i → w.lost i = true) ∧
      IsLeast {n | w.attempts ≤ n ∧ accepts n = true} n) :
    ∃ w', Halts .late (getconnAuto accepts name) w (.ok n) w' := by
  rcases hn with ⟨hsess, halive⟩ | ⟨hlost, hleast⟩
  · have hround := outcome_getconn_some accepts hc hsess
    rw [halive, if_neg Bool.false_ne_true] at hround
    exact ⟨_, halts_retry_ok hround⟩
  · have hk : n = w.attempts + (n - w.attempts) := (Nat.add_sub_cancel' hleast.1.1).symm
    cases hsess : c.sess with
    | none => exact halts_closed hc hsess hleast hk
    | some i =>
        have hround := outcome_getconn_some accepts hc hsess
        rw [hlost i hsess, if_pos rfl] at hround
        have hclosed : (setSess name none { w with lastConnname := name }).conns name =
            some { c with sess := none } := by
          rw [setSess]
          dsimp only
          rw [Function.update_self, hc]
          rfl
        obtain ⟨w', hw'⟩ := halts_closed hclosed rfl hleast hk
        exact ⟨w', (halts_retry_caught hround rfl).mpr hw'⟩

/-- The loop ends exactly if the name is registered and there is a session: one that the server has
not dropped, or a later attempt that it accepts. -/
theorem halts_getconnAuto_iff :
    (∃ r w', Halts .late (getconnAuto accepts name) w r w') ↔
      ∃ c, w.conns name = some c ∧
        ((∃ i, c.sess = some i ∧ w.lost i = false) ∨
          ∃ n, w.attempts ≤ n ∧ accepts n = true) := by
  constructor
  · rintro ⟨r, w', hhalts⟩
    by_contra hnot
    refine not_halts_retry (P := fun w => ∀ c, w.conns name = some c →
      (∀ i, c.sess = some i → w.lost i = true) ∧ ∀ n, w.attempts ≤ n → accepts n = false)
      ?_ ?_ hhalts
    · intro w hw
      cases hc : w.conns name with
      | none =>
          refine ⟨_, _, outcome_getconn_none accepts hc, rfl, fun c hc' => ?_⟩
          have hnone := hc.symm.trans hc'
          cases hnone
      | some c =>
          obtain ⟨hlost, hrefused⟩ := hw c hc
          cases hsess : c.sess with
          | some i =>
              have hround := outcome_getconn_some accepts hc hsess
              rw [hlost i hsess, if_pos rfl] at hround
              refine ⟨_, _, hround, rfl, ?_⟩
              intro c' hc'
              rw [setSess] at hc'
              dsimp only at hc'
              rw [Function.update_self, hc] at hc'
              cases hc'
              refine ⟨?_, hrefused⟩
              rintro i' ⟨⟩
          | none =>
              have hround := outcome_getconn_closed accepts hc hsess
              rw [hrefused w.attempts (Nat.le_refl _), if_neg Bool.false_ne_true] at hround
              refine ⟨_, _, hround, rfl, ?_⟩
              intro c' hc'
              have heq : c = c' := Option.some.inj (hc.symm.trans hc')
              subst heq
              refine ⟨fun i hi => ?_, fun n hn => hrefused n (Nat.le_of_succ_le hn)⟩
              rw [hsess] at hi
              cases hi
    · intro c hc
      refine ⟨fun i hi => ?_, fun n hn => ?_⟩
      · by_contra halive
        exact hnot ⟨c, hc, Or.inl ⟨i, hi, Bool.eq_false_iff.mpr halive⟩⟩
      · by_contra haccepts
        exact hnot ⟨c, hc, Or.inr ⟨n, hn, by rwa [Bool.not_eq_false] at haccepts⟩⟩
  · rintro ⟨c, hc, hready⟩
    by_cases hopen : ∃ i, c.sess = some i ∧ w.lost i = false
    · obtain ⟨i, hi⟩ := hopen
      obtain ⟨w', hw'⟩ := halts_getconnAuto accepts hc (Or.inl hi)
      exact ⟨_, w', hw'⟩
    · have haccepted := hready.resolve_left hopen
      have hlost : ∀ i, c.sess = some i → w.lost i = true := by
        intro i hi
        by_contra halive
        exact hopen ⟨i, hi, Bool.eq_false_iff.mpr halive⟩
      have hleast : IsLeast {n | w.attempts ≤ n ∧ accepts n = true} (Nat.find haccepted) :=
        ⟨Nat.find_spec haccepted, fun m hm => Nat.find_min' haccepted hm⟩
      obtain ⟨w', hw'⟩ := halts_getconnAuto accepts hc (Or.inr ⟨hlost, hleast⟩)
      exact ⟨_, w', hw'⟩

end Auto

end Store

end Gearbox
