import Mathlib.Data.Int.Notation
import Mathlib.Data.List.Induction
import Mathlib.Data.List.Nodup
import Mathlib.Data.List.Sort
import Gearbox.Interleaving.Except

/-!
# The delay daemon

`DelayProcessor::run_delayed_jobs` selects the rows of the delay table that are due,
hands the job of each of them to the gearman server and deletes the row if the response
says that the job was queued. The response comes from `GearmanJobImpl::run_async`, whose
loop around `gearman_client_do_background` is left after its first iteration whether the
server has accepted the job or not, and whose response code is 202 in both cases. A row
is therefore also deleted after its job was refused (`jobs_kept_iff`).

Decoding an envelope and parsing a URI are taken as they are, as functions that may
fail. The calls of the daemon are those to the gearman server and to the status of the
job.
-/

namespace Gearbox

namespace Delay

open Interleaving

/-- One row of the table `jobs`. -/
structure JobRow where
  id : ℕ
  statusName : Option String
  name : String
  envelope : String
  time : ℤ
  ctime : ℤ
  deriving DecidableEq, Repr

/-- The table `jobs`; `id` is its primary key. -/
structure Table where
  rows : List JobRow
  key : (rows.map JobRow.id).Nodup

/-- `DELETE FROM jobs WHERE id=:id` -/
def Table.delete (t : Table) (id : ℕ) : Table where
  rows := t.rows.filter fun r => r.id ≠ id
  key := t.key.sublist (List.filter_sublist.map _)

/-- `SELECT … WHERE time <= :now ORDER BY time ASC` -/
def Table.due (t : Table) (now : ℤ) : List JobRow :=
  (t.rows.filter fun r => r.time ≤ now).insertionSort fun r r' => r.time ≤ r'.time

/-- An exception. -/
structure Error where
  code : ℤ
  message : String
  deriving DecidableEq, Repr

/-- A decoded job, with what `run_async` reads of it. -/
structure Job where
  name : String
  operation : String
  resourceUri : String
  baseUri : String
  deriving DecidableEq, Repr

/-- The content of the response of `run_async`. -/
structure Content where
  operation : String
  uri : String
  statusUri : String
  progress : ℕ
  deriving DecidableEq, Repr

structure JobResponse where
  code : ℤ
  content : Content
  deriving DecidableEq, Repr

/-- The calls of the daemon. -/
inductive Call where
  /-- `gearman_client_echo` succeeds -/
  | echo
  /-- `create_status()`; the answer is the name of the status -/
  | createStatus (job : Job)
  /-- `gearman_client_do_background` for the job of a row: the server accepts it, or
  `gearman_client_error` says why not -/
  | doBackground (row : JobRow) (status : String)
  /-- `resp.status()->add_message(…)` -/
  | addMessage (status message : String)
  deriving DecidableEq, Repr

abbrev Answer : Call → Type
  | .echo => Bool
  | .createStatus _ => Except Error String
  | .doBackground _ _ => Except String Unit
  | .addMessage _ _ => Unit

abbrev Handler (α : Type) := ExceptT Error (Prog Table Answer) α

/-- One call. -/
def ask (x : Call) : Prog Table Answer (Answer x) := Prog.perform x

/-- A program that does not throw. -/
def plain {α : Type} (p : Prog Table Answer α) : Handler α := liftM p

/-- A call whose answer is an exception throws it. -/
def attempt {α : Type} (p : Prog Table Answer (Except Error α)) : Handler α :=
  ExceptT.mk p

/-- The result of a function that may throw. -/
def evaluate {α : Type} (x : Except Error α) : Handler α := ExceptT.mk (pure x)

/-- `GearmanJobImpl::check_connection`, with `timeout` attempts left. -/
def checkConnection : ℕ → Handler Unit
  | 0 => pure ()
  | timeout + 1 => do
      let alive ← plain (ask .echo)
      if alive then
        pure ()
      else if timeout = 0 then
        throw ⟨500, "Lost connection to backend queue"⟩
      else
        checkConnection timeout

section Daemon

variable (decode : String → String → Except Error Job)
  (statusUri : String → String → Except Error String)

/-- The response at the end of `run_async`. -/
def respond (job : Job) (status : String) : Handler JobResponse := do
  let uri ← evaluate (statusUri job.baseUri status)
  return ⟨202, job.operation, job.resourceUri, uri, 0⟩

/-- `GearmanJobImpl::run_async` -/
def runAsync (row : JobRow) (job : Job) : Handler JobResponse := do
  let status ← attempt (ask (.createStatus job))
  let ret ← plain (ask (.doBackground row status))
  -- the loop ends here in either case, since its `break` is not conditional
  match ret with
  | .ok () => respond statusUri job status
  | .error err =>
      plain (ask (.addMessage status ("Failed to run async job" ++ job.name ++ ": " ++
        err)))
      respond statusUri job status

/-- `GearmanJobImpl::run` of a job whose type is `JOB_ASYNC`. -/
def runJob (timeout : ℕ) (row : JobRow) (job : Job) : Handler JobResponse := do
  checkConnection timeout
  runAsync statusUri row job

/-- The body of the loop of `run_delayed_jobs`. -/
def runRow (timeout : ℕ) (row : JobRow) : Handler Unit := do
  let job ← evaluate (decode row.name row.envelope)
  let resp ← runJob statusUri timeout row job
  if resp.code < 300 then
    let _ ← plain (Prog.transact fun t => t.delete row.id)
    return ()
  else
    return ()

/-- The loop of `run_delayed_jobs`. -/
def runRows (timeout : ℕ) : List JobRow → Handler Unit
  | [] => pure ()
  | row :: rest => do
      runRow decode statusUri timeout row
      runRows timeout rest

/-- `DelayProcessor::run_delayed_jobs` -/
def runDelayedJobs (timeout : ℕ) (now : ℤ) : Handler Unit := do
  let t ← plain Prog.select
  runRows decode statusUri timeout (t.due now)

/-- The response for the job of a row can be built: its envelope decodes and its base URI
gives the URI of the status. -/
def Answerable (row : JobRow) (status : String) : Prop :=
  ∃ job uri, decode row.name row.envelope = .ok job ∧
    statusUri job.baseUri status = .ok uri

end Daemon

/-- The rows whose jobs the server has accepted. -/
def accepted (es : List (Event Table Answer)) : List JobRow :=
  es.filterMap fun
    | .call (.doBackground row _) (.ok _) => some row
    | _ => none

/-- A row is deleted only after the server has accepted its job. -/
def Kept (es : List (Event Table Answer)) : Prop :=
  ∀ pre t t' post row, es = pre ++ .update t t' :: post → row ∈ t.rows →
    row ∉ t'.rows → row ∈ accepted pre

theorem kept_snoc (es : List (Event Table Answer)) (e : Event Table Answer) :
    Kept (es ++ [e]) ↔ Kept es ∧ ∀ t t', e = .update t t' → ∀ row ∈ t.rows,
      row ∉ t'.rows → row ∈ accepted es := by
  constructor
  · intro h
    refine ⟨fun pre t t' post row hes => ?_, fun t t' he row => ?_⟩
    · exact h pre t t' (post ++ [e]) row (by rw [hes]; simp)
    · exact h es t t' [] row (by rw [he])
  · intro h pre t t' post row hes
    rcases List.eq_nil_or_concat post with rfl | ⟨post, x, rfl⟩
    · obtain ⟨hpre, hlast⟩ := List.append_inj' hes rfl
      rw [← hpre]
      exact h.2 t t' (List.singleton_injective hlast) row
    · rw [List.concat_eq_append, ← List.cons_append, ← List.append_assoc] at hes
      exact h.1 pre t t' post row (List.append_inj' hes rfl).1

section Daemon

variable (decode : String → String → Except Error Job)
  (statusUri : String → String → Except Error String)

/-- The server refuses no job for which there is a response. -/
def Fair (es : List (Event Table Answer)) : Prop :=
  ∀ row status err, .call (.doBackground row status) (.error err) ∈ es →
    ¬ Answerable decode statusUri row status

theorem fair_snoc (es : List (Event Table Answer)) (e : Event Table Answer) :
    Fair decode statusUri (es ++ [e]) ↔ Fair decode statusUri es ∧
      ∀ row status err, e = .call (.doBackground row status) (.error err) →
        ¬ Answerable decode statusUri row status := by
  constructor
  · intro h
    refine ⟨fun row status err hmem => ?_, fun row status err he => ?_⟩
    · exact h row status err (List.mem_append_left _ hmem)
    · exact h row status err (by rw [he]; simp)
  · intro h row status err hmem
    rcases List.mem_append.1 hmem with hmem | hmem
    · exact h.1 row status err hmem
    · exact h.2 row status err (List.mem_singleton.1 hmem).symm

/-- What the daemon has done so far. -/
structure Ledger where
  table : Table
  accepted : List JobRow
  kept : Prop
  fair : Prop

/-- The monitor of a daemon that is alone with its table. -/
def ledgerMonitor : Monitor Table Answer Ledger where
  next g e := match e with
    | .update t t' =>
        { g with table := t'
                 kept := g.kept ∧ ∀ row ∈ t.rows, row ∉ t'.rows → row ∈ g.accepted }
    | .call (.doBackground row _) (.ok _) => { g with accepted := g.accepted ++ [row] }
    | .call (.doBackground row status) (.error _) =>
        { g with fair := g.fair ∧ ¬ Answerable decode statusUri row status }
    | _ => g
  rely g t := t = g.table
  guar _ _ := True

/-- The ledger of a list of events says what they did. -/
theorem ledger_foldl (t : Table) (es : List (Event Table Answer)) :
    let g := es.foldl (ledgerMonitor decode statusUri).next ⟨t, [], True, True⟩
    g.accepted = accepted es ∧ (g.kept ↔ Kept es) ∧
      (g.fair ↔ Fair decode statusUri es) := by
  induction es using List.reverseRecOn with
  | nil =>
      refine ⟨rfl, ⟨fun _ => ?_, fun _ => trivial⟩, ⟨fun _ => ?_, fun _ => trivial⟩⟩
      · intro pre t t' post row h
        simp at h
      · intro row status err h
        cases h
  | append_singleton es e ih =>
      obtain ⟨hacc, hkept, hfair⟩ := ih
      have hsplit : accepted (es ++ [e]) = accepted es ++ accepted [e] :=
        List.filterMap_append
      simp only [List.foldl_append, List.foldl_cons, List.foldl_nil, kept_snoc,
        fair_snoc, hsplit, ← hkept, ← hfair, ← hacc]
      generalize es.foldl (ledgerMonitor decode statusUri).next ⟨t, [], True, True⟩ = g
      -- each kind of event changes one entry of the ledger at most
      cases e with
      | read t => simp [ledgerMonitor, accepted]
      | update t t' => simp [ledgerMonitor, accepted]
      | call x y =>
          cases x with
          | doBackground row status =>
              cases y with
              | ok _ => simp [ledgerMonitor, accepted]
              | error err => simp [ledgerMonitor, accepted]
          | echo => simp [ledgerMonitor, accepted]
          | createStatus job => simp [ledgerMonitor, accepted]
          | addMessage status message => simp [ledgerMonitor, accepted]

section Ledger

variable {decode : String → String → Except Error Job}
  {statusUri : String → String → Except Error String} {g : Ledger}
  {E : Ledger → Error → Prop}

theorem wpE_evaluate {α : Type} {x : Except Error α} {Q : Ledger → α → Prop}
    (hQ : ∀ a, x = .ok a → Q g a) (hE : ∀ e, x = .error e → E g e) :
    Prog.wpE (ledgerMonitor decode statusUri) (evaluate x) Q E g := by
  cases x with
  | ok a => exact hQ a rfl
  | error e => exact hE e rfl

theorem wpE_checkConnection (timeout : ℕ) (hE : ∀ e, E g e) :
    Prog.wpE (ledgerMonitor decode statusUri) (checkConnection timeout)
      (fun g' _ => g' = g) E g := by
  induction timeout with
  | zero => exact Prog.wpE_pure rfl
  | succ timeout ih =>
      refine Prog.wpE_bind fun alive => ⟨trivial, ?_⟩
      cases alive with
      | true => exact Prog.wpE_pure rfl
      | false =>
          have hagain : Prog.wpE (ledgerMonitor decode statusUri)
              (if timeout = 0 then throw ⟨500, "Lost connection to backend queue"⟩
                else checkConnection timeout) (fun g' _ => g' = g) E g := by
            split
            · exact Prog.wpE_throw (hE _)
            · exact ih
          exact hagain

/-- `run_async` says 202 whether the server accepts the job or refuses it; an exception
after a refusal means that there was no response to build. -/
theorem wpE_runAsync {row : JobRow} {job : Job}
    (hjob : decode row.name row.envelope = .ok job)
    (hE : ∀ g' : Ledger, g'.kept = g.kept → (g'.fair ↔ g.fair) → ∀ e, E g' e) :
    Prog.wpE (ledgerMonitor decode statusUri) (runAsync statusUri row job)
      (fun g' resp => resp.code = 202 ∧
        (g' = { g with accepted := g.accepted ++ [row] } ∨
          g' = { g with fair := False })) E g := by
  refine Prog.wpE_bind fun y => ⟨trivial, ?_⟩
  rw [Prog.wp_ret]
  cases y with
  | error e => exact hE _ rfl Iff.rfl e
  | ok status =>
      refine Prog.wpE_bind fun y => ⟨trivial, ?_⟩
      cases y with
      | ok _ =>
          refine Prog.wpE_bind (wpE_evaluate ?_ ?_)
          · intro uri _
            exact Prog.wpE_pure ⟨rfl, .inl rfl⟩
          · intro e _
            exact hE { g with accepted := g.accepted ++ [row] } rfl Iff.rfl e
      | error err =>
          refine Prog.wpE_bind fun _ => ⟨trivial, Prog.wpE_bind (wpE_evaluate ?_ ?_)⟩
          · intro uri huri
            have hno : (g.fair ∧ ¬ Answerable decode statusUri row status) = False :=
              eq_false fun h => h.2 ⟨job, uri, hjob, huri⟩
            refine Prog.wpE_pure ⟨rfl, .inr ?_⟩
            simp only [ledgerMonitor, hno]
          · intro e huri
            refine hE { g with fair := g.fair ∧ ¬ Answerable decode statusUri row status }
              rfl ⟨fun h => h.1, fun h => ⟨h, ?_⟩⟩ e
            rintro ⟨job', uri, hjob', huri'⟩
            rw [hjob] at hjob'
            cases hjob'
            rw [huri] at huri'
            cases huri'

/-- A row that `DELETE` removes has the id that was asked for. -/
theorem eq_of_deleted {t : Table} {row row' : JobRow} (hrow : row ∈ t.rows)
    (hrow' : row' ∈ t.rows) (hdel : row' ∉ (t.delete row.id).rows) : row' = row := by
  have hid : row'.id = row.id := by
    by_contra hne
    exact hdel (List.mem_filter.2 ⟨hrow', by simpa using hne⟩)
  exact List.inj_on_of_nodup_map t.key hrow' hrow hid

theorem not_mem_delete (t : Table) (row : JobRow) : row ∉ (t.delete row.id).rows := by
  simp [Table.delete]

/-- What one turn of the loop changes: no row is lost exactly as long as the server is
fair, the other rows are still there, and the job of no other row is accepted. -/
structure Turned (row : JobRow) (g g' : Ledger) : Prop where
  balanced : g'.kept ↔ g'.fair
  others : ∀ r ∈ g.table.rows, r.id ≠ row.id → r ∈ g'.table.rows
  accepted : ∀ r ∈ g'.accepted, r ∈ g.accepted ∨ r = row

theorem wpE_runRow (timeout : ℕ) {row : JobRow} (hrow : row ∈ g.table.rows)
    (hnew : row ∉ g.accepted) (hbal : g.kept ↔ g.fair) :
    Prog.wpE (ledgerMonitor decode statusUri) (runRow decode statusUri timeout row)
      (fun g' _ => Turned row g g') (fun g' _ => g'.kept ↔ g'.fair) g := by
  refine Prog.wpE_bind (wpE_evaluate (fun job hjob => ?_) fun e _ => hbal)
  have hrun : Prog.wpE (ledgerMonitor decode statusUri)
      (runJob statusUri timeout row job) (fun g' resp => resp.code = 202 ∧
        (g' = { g with accepted := g.accepted ++ [row] } ∨
          g' = { g with fair := False })) (fun g' _ => g'.kept ↔ g'.fair) g := by
    refine Prog.wpE_bind (Prog.wpE_mono ?_ (fun _ _ h => h)
      (wpE_checkConnection timeout fun _ => hbal))
    intro g' _ hsame
    rw [hsame]
    refine wpE_runAsync hjob fun g' hkept hfair _ => ?_
    rw [hkept, hfair]
    exact hbal
  refine Prog.wpE_bind (Prog.wpE_mono ?_ (fun _ _ h => h) hrun)
  rintro g' resp ⟨hcode, hg'⟩
  have hlow : resp.code < 300 := by
    rw [hcode]
    decide
  rw [if_pos hlow]
  have hothers : ∀ r ∈ g.table.rows, r.id ≠ row.id → r ∈ (g.table.delete row.id).rows :=
    fun r hr hne => List.mem_filter.2 ⟨hr, by simpa using hne⟩
  refine Prog.wpE_bind ?_
  rcases hg' with rfl | rfl
  · rintro _ rfl
    refine ⟨trivial, ⟨⟨?_, ?_⟩, hothers, ?_⟩⟩
    · intro h
      exact hbal.1 h.1
    · intro h
      refine ⟨hbal.2 h, fun r hr hdel => ?_⟩
      rw [eq_of_deleted hrow hr hdel]
      exact List.mem_append_right _ (List.mem_singleton_self row)
    · intro r hr
      rcases List.mem_append.1 hr with hr | hr
      · exact .inl hr
      · exact .inr (List.mem_singleton.1 hr)
  · rintro _ rfl
    refine ⟨trivial, ⟨⟨?_, False.elim⟩, hothers, fun r hr => .inl hr⟩⟩
    intro h
    exact hnew (h.2 row hrow (not_mem_delete _ row))

/-- The loop over rows that are in the table and whose jobs are still to be run. -/
theorem wpE_runRows (timeout : ℕ) (rows : List JobRow)
    (hrows : ∀ r ∈ rows, r ∈ g.table.rows) (hids : (rows.map JobRow.id).Nodup)
    (hnew : ∀ r ∈ rows, r ∉ g.accepted) (hbal : g.kept ↔ g.fair) :
    Prog.wpE (ledgerMonitor decode statusUri) (runRows decode statusUri timeout rows)
      (fun g' _ => g'.kept ↔ g'.fair) (fun g' _ => g'.kept ↔ g'.fair) g := by
  induction rows generalizing g with
  | nil => exact Prog.wpE_pure hbal
  | cons row rest ih =>
      have hrest : ∀ r ∈ rest, r.id ≠ row.id := by
        intro r hr hid
        rw [List.map_cons, List.nodup_cons] at hids
        exact hids.1 (hid ▸ List.mem_map_of_mem hr)
      refine Prog.wpE_bind (Prog.wpE_mono ?_ (fun _ _ h => h)
        (wpE_runRow timeout (hrows row List.mem_cons_self) (hnew row List.mem_cons_self)
          hbal))
      intro g' _ hturned
      refine ih (fun r hr => ?_) (List.nodup_cons.1 hids).2 (fun r hr hacc => ?_)
        hturned.balanced
      · exact hturned.others r (hrows r (List.mem_cons_of_mem _ hr)) (hrest r hr)
      · rcases hturned.accepted r hacc with hacc | rfl
        · exact hnew r (List.mem_cons_of_mem _ hr) hacc
        · exact hrest r hr rfl

theorem nodup_due (t : Table) (now : ℤ) : ((t.due now).map JobRow.id).Nodup := by
  have hperm := (List.perm_insertionSort (fun r r' : JobRow => r.time ≤ r'.time)
    (t.rows.filter fun r => r.time ≤ now)).map JobRow.id
  exact hperm.nodup_iff.2 (t.key.sublist (List.filter_sublist.map _))

theorem mem_of_mem_due {t : Table} {now : ℤ} {row : JobRow} (h : row ∈ t.due now) :
    row ∈ t.rows :=
  (List.mem_filter.1 ((List.mem_insertionSort _).1 h)).1

end Ledger

/-- For every content of the table and every sequence of answers, `run_delayed_jobs`
deletes rows only after their jobs were accepted exactly if the server refuses no job for
which there is a response. -/
theorem jobs_kept_iff (timeout : ℕ) (now : ℤ) (t : Table)
    {es : List (Event Table Answer)} {x : Except Error Unit}
    (hrun : (runDelayedJobs decode statusUri timeout now).run.Runs es x)
    (halone : Prog.Undisturbed t es) :
    Kept es ↔ Fair decode statusUri es := by
  have hwp : Prog.wpE (ledgerMonitor decode statusUri)
      (runDelayedJobs decode statusUri timeout now) (fun g' _ => g'.kept ↔ g'.fair)
      (fun g' _ => g'.kept ↔ g'.fair) ⟨t, [], True, True⟩ := by
    refine Prog.wpE_bind fun s hs => ⟨trivial, ?_⟩
    have hs' : s = t := hs
    rw [hs']
    exact wpE_runRows timeout _ (fun r hr => mem_of_mem_due hr) (nodup_due t now)
      (fun r _ hr => by cases hr) Iff.rfl
  have hend := Prog.wp_runs (J := fun g s => g.table = s) rfl (fun g s h => h.symm)
    ?_ hwp hrun halone
  · obtain ⟨-, hkept, hfair⟩ := ledger_foldl decode statusUri t es
    rw [← hkept, ← hfair]
    cases x with
    | ok _ => exact hend
    | error _ => exact hend
  · intro g s e hg hat
    cases e with
    | read s' => exact hg
    | update s' s'' => rfl
    | call x y =>
        cases x with
        | doBackground row status => cases y <;> exact hg
        | _ => exact hg

end Daemon

/-- Every envelope of these examples decodes to the same job. -/
def decodeAny (name _envelope : String) : Except Error Job :=
  .ok ⟨name, "do_thing", "http://host/thing", "http://host/"⟩

def statusUriOf (baseUri status : String) : Except Error String :=
  .ok (baseUri ++ "status/" ++ status)

/-- A table with one row that is due. -/
def oneDue : Table where
  rows := [⟨1, none, "do_thing", "envelope", 10, 5⟩]
  key := by decide

/-- The answers to a run over `oneDue` in which the server answers `ret` to the job. -/
def answers (ret : Except String Unit) : List ((x : Call) × Answer x) :=
  [⟨.echo, true⟩,
   ⟨.createStatus ⟨"do_thing", "do_thing", "http://host/thing", "http://host/"⟩,
     .ok "s-1"⟩,
   ⟨.doBackground ⟨1, none, "do_thing", "envelope", 10, 5⟩ "s-1", ret⟩]

theorem jobs_kept_accepted :
    ∃ es, (runDelayedJobs decodeAny statusUriOf 60 20).run.Runs es (.ok ()) ∧
      .update oneDue (oneDue.delete 1) ∈ es ∧ Kept es := by
  have hexec : (runDelayedJobs decodeAny statusUriOf 60 20).run.execute oneDue
      (answers (.ok ())) = some ([.read oneDue, .call .echo true,
        .call (.createStatus ⟨"do_thing", "do_thing", "http://host/thing",
          "http://host/"⟩) (.ok "s-1"),
        .call (.doBackground ⟨1, none, "do_thing", "envelope", 10, 5⟩ "s-1") (.ok ()),
        .update oneDue (oneDue.delete 1)], .ok ()) := by rfl
  obtain ⟨hrun, halone⟩ := Prog.runs_of_execute hexec
  refine ⟨_, hrun, by simp, ?_⟩
  refine (jobs_kept_iff decodeAny statusUriOf 60 20 oneDue hrun halone).2 ?_
  intro row status err hmem
  simp at hmem

/-- The server refuses the job, and its row is deleted. -/
theorem job_lost :
    ¬ ∀ (t : Table) (es : List (Event Table Answer)) (x : Except Error Unit),
      (runDelayedJobs decodeAny statusUriOf 60 20).run.Runs es x →
      Prog.Undisturbed t es → Kept es := by
  intro hall
  have hexec : (runDelayedJobs decodeAny statusUriOf 60 20).run.execute oneDue
      (answers (.error "timeout") ++
        [⟨.addMessage "s-1" "Failed to run async jobdo_thing: timeout", ()⟩]) =
    some ([.read oneDue, .call .echo true,
        .call (.createStatus ⟨"do_thing", "do_thing", "http://host/thing",
          "http://host/"⟩) (.ok "s-1"),
        .call (.doBackground ⟨1, none, "do_thing", "envelope", 10, 5⟩ "s-1")
          (.error "timeout"),
        .call (.addMessage "s-1" "Failed to run async jobdo_thing: timeout") ()] ++
        [.update oneDue (oneDue.delete 1)], .ok ()) := by rfl
  obtain ⟨hrun, halone⟩ := Prog.runs_of_execute hexec
  have hkept := hall oneDue _ _ hrun halone _ _ _ [] _ rfl (List.mem_singleton_self _)
    (by decide)
  simp [accepted] at hkept

end Delay

end Gearbox
