import Gearbox.Delay.Daemon
import Gearbox.Interleaving.Steady

/-!
# A delayed job that cannot be decoded

`run_delayed_jobs` takes the rows that are due in the order of their times. Where the envelope of
a row cannot be decoded, the exception leaves the loop, and `main` ends the daemon; the row is
still there when the daemon is started again. So no daemon gets past it: the jobs behind it are
never handed over, unless somebody gives them, or that row, another time.

The daemons of a run here are any number of processes, each of which ends at an exception: those
that are started one after the other are among them.
-/

namespace Gearbox

namespace Delay

open Interleaving

namespace Table

variable {t : Table} {r : JobRow}

theorem mem_insert (h : r ∈ t.rows) (content : DelayContent) (time ctime : ℤ) :
    r ∈ (t.insert content time ctime).rows :=
  List.mem_append_left _ h

theorem mem_setTime {name : String} (h : r ∈ t.rows) (hname : r.statusName ≠ some name)
    (time : ℤ) : r ∈ (t.setTime name time).rows :=
  List.mem_map.mpr ⟨r, h, if_neg hname⟩

theorem mem_delete {id : ℕ} (h : r ∈ t.rows) (hid : r.id ≠ id) : r ∈ (t.delete id).rows :=
  List.mem_filter.mpr ⟨h, decide_eq_true hid⟩

theorem mem_due {now : ℤ} : r ∈ t.due now ↔ r ∈ t.rows ∧ r.time ≤ now := by
  rw [due, List.mem_insertionSort, List.mem_filter, decide_eq_true_eq]

theorem pairwise_due (t : Table) (now : ℤ) :
    (t.due now).Pairwise fun r r' => r.time ≤ r'.time :=
  List.pairwise_insertionSort _ _

end Table

/-- The status whose jobs an operation gives another time. -/
def Op.reschedules : Op → Option String
  | .postStatus name _ => some name
  | .stopStatus name => some name
  | _ => none

/-- No operation of the run gives the row another time. -/
def LeftAlone {ι : Type} (tr : List (Label ι Shared Reply Role Op Unit)) (r : JobRow) : Prop :=
  ∀ i op name, .call i op ∈ tr → op.reschedules = some name → r.statusName ≠ some name

section Pass

variable {decode : String → String → Except Error Job}
  {statusUri : String → String → Except Error String} {p : JobRow} {K : JobRow → Prop}

/-- The rows of `K` are in the table. -/
def Holds (K : JobRow → Prop) (t : Table) : Prop :=
  ∀ r, K r → r ∈ t.rows

/-- A call that hands over no job behind the row `p`. -/
def NotBehind (p : JobRow) : Call → Prop
  | .doBackground row _ => row.time ≤ p.time
  | _ => True

/-- The clients of the table keep the rows of `K` and hand over no job behind `p`. -/
abbrev Keeping {α : Type} (p : JobRow) (K : JobRow → Prop) (Q : α → Prop)
    (handler : Handler α) : Prop :=
  Prog.steadyE (Holds K) (fun _ _ => True) (NotBehind p) Q handler

theorem keeping_ask {x : Call} (hx : NotBehind p x) :
    Keeping p K (fun _ => True) (plain (ask x)) :=
  Prog.steadyE_lift ⟨hx, fun _ _ => trivial⟩

theorem keeping_evaluate {α : Type} {x : Except Error α} {Q : α → Prop}
    (h : ∀ a, x = .ok a → Q a) : Keeping p K Q (evaluate x) := h

theorem keeping_checkConnection (timeout : ℕ) :
    Keeping p K (fun _ => True) (checkConnection timeout) := by
  induction timeout with
  | zero => exact Prog.steadyE_pure trivial
  | succ timeout ih =>
      refine Prog.steadyE_bind (keeping_ask trivial) fun alive _ => ?_
      split
      · exact Prog.steadyE_pure trivial
      · split
        · exact Prog.steadyE_throw _
        · exact ih

theorem keeping_respond (job : Job) (status : String) :
    Keeping p K (fun _ => True) (respond statusUri job status) :=
  Prog.steadyE_bind (keeping_evaluate fun _ _ => trivial) fun _ _ => Prog.steadyE_pure trivial

theorem keeping_runAsync {row : JobRow} (hrow : row.time ≤ p.time) (job : Job) :
    Keeping p K (fun _ => True) (runAsync statusUri row job) := by
  have hstatus : Keeping p K (fun _ => True) (attempt (ask (.createStatus job))) :=
    ⟨trivial, fun _ _ _ _ => trivial⟩
  refine Prog.steadyE_bind hstatus fun status _ => ?_
  refine Prog.steadyE_bind (keeping_ask hrow) fun ret _ => ?_
  cases ret with
  | ok _ => exact keeping_respond job status
  | error err =>
      exact Prog.steadyE_bind (keeping_ask trivial) fun _ _ => keeping_respond job status

variable (statusUri) in
/-- The row `p` is not got past, and a row in front of it takes no row of `K` with it. -/
theorem keeping_runRow {e : Error} (hbad : decode p.name p.envelope = .error e) (timeout : ℕ)
    {row : JobRow} (hrow : row ≠ p → row.time ≤ p.time ∧ ∀ r, K r → r.id ≠ row.id) :
    Keeping p K (fun _ => row ≠ p) (runRow decode statusUri timeout row) := by
  have hdecode : Keeping p K (fun _ => row ≠ p) (evaluate (decode row.name row.envelope)) := by
    refine keeping_evaluate fun job hjob => ?_
    rintro rfl
    rw [hbad] at hjob
    cases hjob
  refine Prog.steadyE_bind hdecode fun job hne => ?_
  obtain ⟨hfront, hids⟩ := hrow hne
  have hrun : Keeping p K (fun _ => True) (runJob statusUri timeout row job) :=
    Prog.steadyE_bind (keeping_checkConnection timeout) fun _ _ => keeping_runAsync hfront job
  refine Prog.steadyE_bind hrun fun resp _ => ?_
  split
  · have hdelete : Keeping p K (fun _ => True)
        (plain (Prog.transact fun t : Table => t.delete row.id)) :=
      Prog.steadyE_lift fun t ht =>
        ⟨fun r hr => Table.mem_delete (ht r hr) (hids r hr), trivial⟩
    exact Prog.steadyE_bind hdelete fun _ _ => Prog.steadyE_pure hne
  · exact Prog.steadyE_pure hne

variable (statusUri) in
/-- The loop over rows in the order of their times does not come to its end where `p` is one of
them. -/
theorem keeping_runRows {e : Error} (hbad : decode p.name p.envelope = .error e) (timeout : ℕ)
    {rows : List JobRow} (hsorted : rows.Pairwise fun r r' => r.time ≤ r'.time)
    (hfront : p ∈ rows ∨ ∀ row ∈ rows, row.time ≤ p.time)
    (hids : ∀ row ∈ rows, row ≠ p → row.time ≤ p.time → ∀ r, K r → r.id ≠ row.id) :
    Keeping p K (fun _ => p ∉ rows) (runRows decode statusUri timeout rows) := by
  induction rows with
  | nil => exact Prog.steadyE_pure List.not_mem_nil
  | cons row rest ih =>
      obtain ⟨hfirst, hrest⟩ := List.pairwise_cons.mp hsorted
      have hle : row ≠ p → row.time ≤ p.time := by
        intro hne
        rcases hfront with hp | hall
        · rcases List.mem_cons.mp hp with rfl | hp
          · exact absurd rfl hne
          · exact hfirst p hp
        · exact hall row (.head _)
      have hrow := keeping_runRow statusUri hbad timeout
        fun hne => ⟨hle hne, hids row (.head _) hne (hle hne)⟩
      refine Prog.steadyE_bind hrow fun _ hne => ?_
      have hfront' : p ∈ rest ∨ ∀ row ∈ rest, row.time ≤ p.time := by
        rcases hfront with hp | hall
        · exact .inl ((List.mem_cons.mp hp).resolve_left (Ne.symm hne))
        · exact .inr fun r hr => hall r (.tail _ hr)
      have hloop := ih hrest hfront' fun r hr => hids r (.tail _ hr)
      exact Prog.steadyE_mono
        (fun _ hp => List.not_mem_cons_of_ne_of_not_mem (Ne.symm hne) hp) hloop

variable (statusUri) in
/-- A pass that comes to its end was too early for `p`. -/
theorem keeping_runDelayedJobs {e : Error} (hbad : decode p.name p.envelope = .error e)
    (hp : K p) (hK : ∀ r, K r → r = p ∨ p.time < r.time) (timeout : ℕ) (now : ℤ) :
    Keeping p K (fun _ => now < p.time) (runDelayedJobs decode statusUri timeout now) := by
  have hselect : Keeping p K (Holds K) (plain Prog.select) :=
    Prog.steadyE_lift fun _ ht => ht
  refine Prog.steadyE_bind hselect fun t ht => ?_
  have hids : ∀ row ∈ t.due now, row ≠ p → row.time ≤ p.time → ∀ r, K r → r.id ≠ row.id := by
    intro row hrow hne hle r hr hid
    have heq : r = row :=
      List.inj_on_of_nodup_map t.key (ht r hr) (Table.mem_due.mp hrow).1 hid
    rcases hK r hr with rfl | hlt
    · exact hne heq.symm
    · rw [heq] at hlt
      exact absurd hle (not_le.mpr hlt)
  have hfront : p ∈ t.due now ∨ ∀ row ∈ t.due now, row.time ≤ p.time := by
    rcases le_or_gt p.time now with hle | hlt
    · exact .inl (Table.mem_due.mpr ⟨ht p hp, hle⟩)
    · exact .inr fun row hrow => (Table.mem_due.mp hrow).2.trans hlt.le
  have hloop := keeping_runRows statusUri hbad timeout
    (Table.pairwise_due t now) hfront hids
  refine Prog.steadyE_mono (fun _ hdue => ?_) hloop
  by_contra hle
  exact hdue (Table.mem_due.mpr ⟨ht p hp, not_lt.mp hle⟩)

end Pass

section System

variable {p : JobRow} {K : JobRow → Prop} {due : Prop}

/-- Where `p` is due, the clock does not say otherwise. -/
def Reads (p : JobRow) (due : Prop) : ∀ q, Reply q → Prop
  | .time, now => due → p.time ≤ now
  | _, _ => True

/-- No job behind `p` is handed over, and where `p` is due nobody waits in `select`. -/
def Asks (p : JobRow) (due : Prop) : Query → Prop
  | .job x => NotBehind p x
  | .select _ => ¬due
  | _ => True

/-- The clients of the shared store keep the rows of `K` in the table. -/
abbrev Guarding {α : Type} (p : JobRow) (K : JobRow → Prop) (due : Prop) (Q : α → Prop)
    (task : Task α) : Prop :=
  Prog.steadyE (fun s => Holds K s.table) (Reads p due) (Asks p due) Q task

theorem guarding_transact {f : Shared → Shared}
    (hf : ∀ s, Holds K s.table → Holds K (f s).table) :
    Guarding p K due (fun _ => True) (quiet (Prog.transact f)) :=
  Prog.steadyE_lift fun s hs => ⟨hf s hs, trivial⟩

theorem guarding_time :
    Guarding p K due (fun now => due → p.time ≤ now) (quiet (query .time)) :=
  Prog.steadyE_lift ⟨trivial, fun _ hnow => hnow⟩

theorem guarding_pokeDelayDaemon (rows : List JobRow) :
    Guarding p K due (fun _ => True) (pokeDelayDaemon rows) :=
  Prog.steadyE_bind (guarding_transact fun _ hs => hs) fun _ _ => Prog.steadyE_pure trivial

theorem guarding_doPutDelayJob (runImmediately : Bool) (content : DelayContent) :
    Guarding p K due (fun _ => True) (doPutDelayJob runImmediately content) := by
  refine Prog.steadyE_bind guarding_time fun now _ => ?_
  refine Prog.steadyE_bind (guarding_transact fun s hs r hr => ?_) fun s _ =>
    guarding_pokeDelayDaemon _
  exact Table.mem_insert (hs r hr) _ _ _

theorem guarding_reschedule {name : String} (time : ℤ)
    (hname : ∀ r, K r → r.statusName ≠ some name) :
    Guarding p K due (fun _ => True) (reschedule name time) := by
  refine Prog.steadyE_bind (guarding_transact fun s hs r hr => ?_) fun s _ => ?_
  · exact Table.mem_setTime (hs r hr) (hname r hr) time
  · have hytime : Guarding p K due (fun _ => True) (ExceptT.mk (query (.setYtime name time))) :=
      ⟨trivial, fun _ _ _ _ => trivial⟩
    exact Prog.steadyE_bind hytime fun _ _ => guarding_pokeDelayDaemon _

theorem guarding_selectAccept (hdue : ¬due) (timeout : Option Timeout) :
    Guarding p K due (fun _ => True) (selectAccept timeout) := by
  have hselect : Guarding p K due (fun _ => True) (ExceptT.mk (query (.select timeout))) :=
    ⟨hdue, fun _ _ _ _ => trivial⟩
  refine Prog.steadyE_bind hselect fun ready _ => ?_
  split
  · exact Prog.steadyE_bind (guarding_transact fun _ hs => hs) fun _ _ =>
      Prog.steadyE_pure trivial
  · exact Prog.steadyE_pure trivial

theorem guarding_waitNextJob (hdue : ¬due) :
    Guarding p K due (fun _ => True) waitNextJob := by
  have hread : Guarding p K due (fun _ => True) (quiet Prog.select) :=
    Prog.steadyE_lift fun _ _ => trivial
  refine Prog.steadyE_bind hread fun s _ => ?_
  split
  · exact guarding_selectAccept hdue none
  · refine Prog.steadyE_bind guarding_time fun now _ => ?_
    split
    · exact Prog.steadyE_pure trivial
    · exact guarding_selectAccept hdue _

/-- A round of a daemon ends with an exception where `p` is due. -/
theorem guarding_daemonRound {decode : String → String → Except Error Job} {e : Error}
    (hbad : decode p.name p.envelope = .error e) (hp : K p)
    (hK : ∀ r, K r → r = p ∨ p.time < r.time)
    (statusUri : String → String → Except Error String) (timeout : ℕ) :
    Guarding p K due (fun _ => ¬due) (daemonRound decode statusUri timeout) := by
  have hpass : Guarding p K due (fun _ => ¬due)
      (runDelayedJobsShared decode statusUri timeout) := by
    refine Prog.steadyE_bind guarding_time fun now hnow => ?_
    have hjobs := keeping_runDelayedJobs statusUri hbad hp hK timeout now
    have hshared : Guarding p K due (fun _ => now < p.time)
        (ExceptT.mk ((runDelayedJobs decode statusUri timeout now).run.embed Shared.table
          (fun t s => { s with table := t }) .job fun _ y => y)) :=
      Prog.steady_embed (fun _ hs => hs) (fun _ _ _ ht => ht) (fun _ _ _ => trivial)
        (fun _ hx => hx) hjobs
    exact Prog.steadyE_mono (fun _ hlt hdue => absurd (hnow hdue) (not_le.mpr hlt)) hshared
  refine Prog.steadyE_bind hpass fun _ hdue => ?_
  exact Prog.steadyE_mono (fun _ _ => hdue) (guarding_waitNextJob hdue)

/-- What a process does for one round or one job. -/
theorem steady_body (setup : Setup) {e : Error} (hbad : setup.decode p.name p.envelope = .error e)
    (hp : K p) (hK : ∀ r, K r → r = p ∨ p.time < r.time) (op : Op) (role : Role)
    (hop : ∀ name, op.reschedules = some name → ∀ r, K r → r.statusName ≠ some name) :
    (body setup op role).steady (fun s => Holds K s.table) (Reads p due) (Asks p due)
      fun r => due → op = .round → role = .daemon → r.2 = .stopped := by
  cases op with
  | round =>
      cases role with
      | daemon =>
          refine Prog.steady_bind
            (guarding_daemonRound hbad hp hK setup.statusUri setup.timeout) fun r hr => ?_
          cases r with
          | ok a => exact fun hdue _ _ => absurd hdue (hr a rfl)
          | error _ => exact fun _ _ _ => rfl
      | stopped => exact fun _ _ _ => rfl
      | worker => rintro - - ⟨⟩
  | putDelayJob content =>
      cases role with
      | worker =>
          refine Prog.steady_bind (guarding_doPutDelayJob setup.runImmediately content) ?_
          rintro - - - ⟨⟩
      | daemon => rintro - ⟨⟩
      | stopped => rintro - ⟨⟩
  | postStatus name ytime =>
      cases role with
      | worker =>
          refine Prog.steady_bind (guarding_reschedule ytime (hop name rfl)) ?_
          rintro - - - ⟨⟩
      | daemon => rintro - ⟨⟩
      | stopped => rintro - ⟨⟩
  | stopStatus name =>
      cases role with
      | worker =>
          refine Prog.steady_bind (guarding_reschedule 0 (hop name rfl)) ?_
          rintro - - - ⟨⟩
      | daemon => rintro - ⟨⟩
      | stopped => rintro - ⟨⟩

/-- A row that cannot be decoded stays in the table, and so does every row behind it; no daemon
ever hands over a job that is behind it. From the time on when it is due, no daemon waits for
the next job any more, and every round of a daemon ends the daemon. -/
theorem jobs_blocked {ι : Type} [DecidableEq ι] (setup : Setup)
    {c₀ c : Config ι Shared Reply Role Op Unit} {tr : List (Label ι Shared Reply Role Op Unit)}
    (h₀ : c₀.AtRest) (hrun : Run (body setup) c₀ tr c) (hp : p ∈ c₀.store.table.rows) {e : Error}
    (hbad : setup.decode p.name p.envelope = .error e) (halone : LeftAlone tr p) :
    (∀ r ∈ c₀.store.table.rows, r = p ∨ p.time < r.time → LeftAlone tr r →
        r ∈ c.store.table.rows) ∧
      (∀ i row status ret, (i, .call (.job (.doBackground row status)) ret) ∈ events tr →
        row.time ≤ p.time) ∧
      ((∀ i now, (i, .call .time now) ∈ events tr → p.time ≤ now) →
        (∀ i timeout ready, (i, .call (.select timeout) ready) ∉ events tr) ∧
          ∀ i es r role, .finish i .round .daemon es r role ∈ tr → role = .stopped) := by
  let K : JobRow → Prop := fun r =>
    r ∈ c₀.store.table.rows ∧ (r = p ∨ p.time < r.time) ∧ LeftAlone tr r
  have hKp : K p := ⟨hp, .inl rfl, halone⟩
  have hstart : Holds K c₀.store.table := fun _ hr => hr.1
  -- the operations of the run are those that leave the rows of `K` alone
  have hops : ∀ i op, .call i op ∈ tr → ∀ name, op.reschedules = some name →
      ∀ r, K r → r.statusName ≠ some name :=
    fun i op hop name hname r hr => hr.2.2 i op name hop hname
  have hsteady := fun due : Prop => hrun.steady (Q := fun op role r =>
      due → op = .round → role = .daemon → r.2 = .stopped)
    (fun op role => steady_body setup hbad hKp (fun _ hr => hr.2.1) op role) hstart h₀ hops
  have hclock : ∀ due : Prop, (due → ∀ i now, (i, .call .time now) ∈ events tr → p.time ≤ now) →
      ∀ i q y, (i, .call q y) ∈ events tr → Reads p due q y := by
    intro due hdue i q y hq
    cases q with
    | time => exact fun h => hdue h i y hq
    | _ => trivial
  obtain ⟨hend, hcalls, -⟩ := hsteady False (hclock False False.elim)
  refine ⟨fun r hr hbehind hleft => hend r ⟨hr, hbehind, hleft⟩, fun i row status ret hcall => ?_,
    fun hdue => ?_⟩
  · exact hcalls i _ _ hcall
  · obtain ⟨-, hwaits, hdone, -⟩ := hsteady True (hclock True fun _ => hdue)
    refine ⟨fun i timeout ready hselect => ?_, fun i es r role hfinish => ?_⟩
    · exact hwaits i _ _ hselect trivial
    · exact hdone i _ _ es r role hfinish trivial rfl rfl

end System

/-- An envelope that is empty cannot be decoded in this example. -/
def decodeNonempty (name envelope : String) : Except Error Job :=
  if envelope = "" then .error ⟨500, "parse error: premature EOF"⟩ else decodeAny name envelope

def emptyEnvelope : JobRow := ⟨2, none, "do_thing", "", 3, 0⟩

/-- Two daemons, and a job before and a job behind one with an empty envelope. -/
def twoDaemons : Config Bool Shared Reply Role Op Unit where
  store := ⟨⟨[⟨1, none, "do_thing", "envelope", 5, 0⟩, emptyEnvelope,
    ⟨3, none, "do_thing", "envelope", 1, 0⟩], by decide⟩, []⟩
  client := fun _ => .idle .daemon

/-- A daemon hands over the first job and ends at the second one, and the next daemon ends
there at once. -/
def endTwice : List (Move Bool Reply Op) :=
  [.call true .round, .answer true .time (10 : ℤ), .go true, .answer true (.job .echo) true,
    .answer true (.job (.createStatus ⟨"do_thing", "do_thing", "http://host/thing",
      "http://host/"⟩)) (.ok "s-1"),
    .answer true (.job (.doBackground ⟨3, none, "do_thing", "envelope", 1, 0⟩ "s-1")) (.ok ()),
    .go true, .finish true, .call false .round, .answer false .time (20 : ℤ), .go false,
    .finish false]

/-- The row is due at what the clock says. -/
def isDue : Event Shared Reply → Bool
  | .call .time now => decide ((3 : ℤ) ≤ now)
  | _ => true

/-- The step is no start of an operation that gives rows another time. -/
def leavesTimes : Label Bool Shared Reply Role Op Unit → Bool
  | .call _ op => op.reschedules.isNone
  | .event .. | .retry _ | .finish .. => true

theorem jobs_blocked_twice :
    ∃ tr c, Run (body ⟨decodeNonempty, statusUriOf, 60, false⟩) twoDaemons tr c ∧
      c.store.table.rows = [⟨1, none, "do_thing", "envelope", 5, 0⟩, emptyEnvelope] ∧
      (∀ r ∈ twoDaemons.store.table.rows, r = emptyEnvelope ∨ 3 < r.time → LeftAlone tr r →
        r ∈ c.store.table.rows) ∧
      ∀ i es r role, .finish i .round .daemon es r role ∈ tr → role = .stopped := by
  have hexec : (scheduleAll (body ⟨decodeNonempty, statusUriOf, 60, false⟩) twoDaemons
      endTwice).map (fun x => (x.2.store.table.rows, (events x.1).all fun ie => isDue ie.2,
        x.1.all leavesTimes)) =
      some ([⟨1, none, "do_thing", "envelope", 5, 0⟩, emptyEnvelope], true, true) := by rfl
  obtain ⟨tr, c, hrun, hc⟩ := exists_run_of_scheduleAll hexec
  simp only [Prod.mk.injEq] at hc
  obtain ⟨hrows, hdue, hleaves⟩ := hc
  have halone : LeftAlone tr emptyEnvelope := by
    intro i op name hop hname
    have hnone := List.all_eq_true.mp hleaves _ hop
    rw [leavesTimes, hname] at hnone
    cases hnone
  have hclock : ∀ i now, (i, Event.call .time now) ∈ events tr → emptyEnvelope.time ≤ now :=
    fun i now hmem => of_decide_eq_true (List.all_eq_true.mp hdue _ hmem)
  obtain ⟨hstay, -, hended⟩ := jobs_blocked ⟨decodeNonempty, statusUriOf, 60, false⟩
    (fun i => ⟨.daemon, rfl⟩) hrun (p := emptyEnvelope) (by simp [twoDaemons]) rfl halone
  exact ⟨tr, c, hrun, hrows, hstay, (hended hclock).2⟩

end Delay

end Gearbox
