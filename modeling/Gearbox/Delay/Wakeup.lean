import Gearbox.Delay.Daemon

/-!
# No wake-up of the delay daemon is missed

While the daemon waits in `select`, every row that is due before the end of the wait was
committed after the daemon had read the time of the next job. Its worker is therefore
still to poke the daemon, or the connection of this poke is still in the queue, since the
daemon accepts connections only after `select`.
-/

namespace Gearbox

namespace Delay

open Interleaving

/-- A process of the system. -/
abbrev Process := Client Shared Reply Role Op Unit

/-- The time is before the deadline; a daemon that has read an empty table has none. -/
def Earlier (time : ℤ) : Option ℤ → Prop
  | none => True
  | some d => time < d

/-- The process is in `select` with the deadline `d`. -/
def BlockedUntil (process : Process) (d : Option ℤ) : Prop :=
  ∃ op role es timeout k, process = .busy op role es (.call (.select timeout) k) ∧
    d = timeout.map Timeout.deadline

/-- The process is in the middle of a job in which it has committed the row, and it has
not poked the daemon since. -/
def OwesPoke (process : Process) (r : JobRow) : Prop :=
  ∃ op role es p before s s' after, process = .busy op role es p ∧
    es = before ++ .update s s' :: after ∧ r ∈ s'.table.rows ∧ r ∉ s.table.rows ∧
    ∀ t t', .update t t' ∈ after → t'.queue = t.queue

/-- What is known of a process: whether it is the daemon, the deadline it would wait for
after its last read of the table, the rows it has committed since its last poke, and
whether it has thrown before a poke. -/
structure Watch where
  daemon : Prop
  deadline : Option (Option ℤ)
  owed : JobRow → Prop
  threw : Prop

/-- A new process with a role. -/
def Watch.start (role : Role) : Watch :=
  ⟨role ≠ .worker, none, fun _ => False, False⟩

def watchMonitor : Monitor Shared Reply Watch where
  next w e :=
    match e with
    | .read s => { w with deadline := some s.table.first }
    | .update s s' =>
        if s'.queue = s.queue then
          { w with owed := fun r => w.owed r ∨ r ∈ s'.table.rows ∧ r ∉ s.table.rows }
        else
          { w with deadline := none, owed := fun _ => False }
    | .call (.setYtime _ _) (.error _) => { w with threw := True, owed := fun _ => False }
    | .call _ _ => w
  rely _ _ := True
  guar w e :=
    match e with
    | .read _ => w.daemon
    | .update s s' =>
        (w.daemon ∧ s'.queue = s.queue ∧ ∀ r ∈ s'.table.rows, r ∈ s.table.rows) ∨
        (w.daemon ∧ s'.queue = s.queue.tail ∧ s'.table = s.table) ∨
        (¬w.daemon ∧ s'.queue = s.queue) ∨
        ¬w.daemon ∧ s'.table = s.table ∧
          ∃ rows, s'.queue = s.queue ++ [rows] ∧ ∀ r, w.owed r → r ∈ rows
    | .call (.select timeout) _ => w.deadline = some (timeout.map Timeout.deadline)
    | .call _ _ => True

section Programs

variable {w : Watch}

theorem daemon_next (w : Watch) (e : Event Shared Reply) :
    (watchMonitor.next w e).daemon = w.daemon := by
  cases e with
  | read s => rfl
  | update s s' =>
      simp only [watchMonitor]
      split
      · rfl
      · rfl
  | call x y =>
      cases x with
      | setYtime name ytime => cases y <;> rfl
      | _ => rfl

/-- A commit. -/
theorem next_commit (w : Watch) (s s' : Shared) (h : s'.queue = s.queue) :
    watchMonitor.next w (.update s s') = { w with
      owed := fun r => w.owed r ∨ r ∈ s'.table.rows ∧ r ∉ s.table.rows } := by
  simp only [watchMonitor, if_pos h]

theorem next_table (w : Watch) (s : Shared) (t : Table) :
    watchMonitor.next w (.update s { s with table := t }) = { w with
      owed := fun r => w.owed r ∨ r ∈ t.rows ∧ r ∉ s.table.rows } :=
  next_commit w s _ rfl

/-- A change of the queue. -/
theorem next_queue (w : Watch) (s s' : Shared) (h : s'.queue ≠ s.queue) :
    watchMonitor.next w (.update s s') =
      { w with deadline := none, owed := fun _ => False } := by
  simp only [watchMonitor, if_neg h]

/-- Nothing is owed, and the process is the daemon. -/
def Watch.Serves (w : Watch) : Prop :=
  w.daemon ∧ ∀ r, ¬w.owed r

/-- Nothing is owed, and the process is a worker. -/
def Watch.Works (w : Watch) : Prop :=
  ¬w.daemon ∧ ∀ r, ¬w.owed r

section Deletes

variable {decode : String → String → Except Error Job}
  {statusUri : String → String → Except Error String}

/-- A program of the daemon whose transactions only delete rows. -/
def Deletes {α : Type} (p : Handler α) : Prop :=
  Prog.wpE (Prog.changes fun t t' : Table => ∀ r ∈ t'.rows, r ∈ t.rows) p
    (fun _ _ => True) (fun _ _ => True) ()

theorem deletes_bind {α β : Type} {p : Handler α} {q : α → Handler β} (hp : Deletes p)
    (hq : ∀ a, Deletes (q a)) : Deletes (p >>= q) :=
  Prog.wpE_bind (Prog.wpE_mono (fun _ a _ => hq a) (fun _ _ h => h) hp)

theorem deletes_pure {α : Type} (a : α) : Deletes (pure a) :=
  Prog.wpE_pure trivial

theorem deletes_ask (x : Call) : Deletes (plain (ask x)) :=
  fun _ => ⟨trivial, trivial⟩

theorem deletes_evaluate {α : Type} (x : Except Error α) : Deletes (evaluate x) := by
  cases x with
  | ok a => exact trivial
  | error e => exact trivial

theorem deletes_checkConnection (timeout : ℕ) : Deletes (checkConnection timeout) := by
  induction timeout with
  | zero => exact deletes_pure ()
  | succ timeout ih =>
      apply deletes_bind (deletes_ask .echo)
      intro alive
      by_cases halive : alive
      · rw [if_pos halive]
        exact deletes_pure ()
      · rw [if_neg halive]
        split
        · exact Prog.wpE_throw trivial
        · exact ih

theorem deletes_respond (job : Job) (status : String) :
    Deletes (respond statusUri job status) :=
  deletes_bind (deletes_evaluate _) fun _ => deletes_pure _

theorem deletes_runAsync (row : JobRow) (job : Job) :
    Deletes (runAsync statusUri row job) := by
  apply deletes_bind
  · intro status
    cases status with
    | ok name => exact ⟨trivial, trivial⟩
    | error e => exact ⟨trivial, trivial⟩
  · intro status
    apply deletes_bind (deletes_ask (.doBackground row status))
    intro ret
    cases ret with
    | ok _ => exact deletes_respond job status
    | error err =>
        apply deletes_bind (deletes_ask _)
        intro _
        exact deletes_respond job status

theorem deletes_runRow (timeout : ℕ) (row : JobRow) :
    Deletes (runRow decode statusUri timeout row) := by
  apply deletes_bind (deletes_evaluate _)
  intro job
  apply deletes_bind
  · apply deletes_bind (deletes_checkConnection timeout)
    intro _
    exact deletes_runAsync row job
  · intro resp
    by_cases hcode : resp.code < 300
    · rw [if_pos hcode]
      intro t _
      refine ⟨?_, trivial⟩
      intro r hr
      exact (List.mem_filter.mp hr).1
    · rw [if_neg hcode]
      exact deletes_pure ()

theorem deletes_runDelayedJobs (timeout : ℕ) (now : ℤ) :
    Deletes (runDelayedJobs decode statusUri timeout now) := by
  have hrows : ∀ rows, Deletes (runRows decode statusUri timeout rows) := by
    intro rows
    induction rows with
    | nil => exact deletes_pure ()
    | cons row rest ih =>
        apply deletes_bind (deletes_runRow timeout row)
        intro _
        exact ih
  intro t _
  exact ⟨trivial, hrows (t.due now)⟩

/-- A program of the daemon that only deletes rows, on the shared table. -/
theorem wpE_embed {α : Type} {p : Handler α} (hp : Deletes p) (hw : w.Serves) :
    Prog.wpE watchMonitor (ExceptT.mk (p.run.embed Shared.table
        (fun t s => { s with table := t }) Query.job fun _ y => y) : Task α)
      (fun w' _ => w'.Serves) (fun w' _ => w'.Serves) w := by
  have hembed := Prog.wp_embed (m := watchMonitor) (J := Watch.Serves) Shared.table
    (fun t s => { s with table := t }) Query.job (fun _ y => y) ?_ ?_ ?_ hp hw
  · refine Prog.wp_mono _ ?_ hembed
    rintro w' r ⟨hserves, -⟩
    cases r with
    | ok _ => exact hserves
    | error _ => exact hserves
  · intro w s hw _
    exact ⟨hw.1, hw⟩
  · intro w s t hw _ ht
    refine ⟨.inl ⟨hw.1, rfl, ht⟩, ?_⟩
    rw [next_table]
    refine ⟨hw.1, ?_⟩
    rintro r (hr | ⟨hr, hnew⟩)
    · exact hw.2 r hr
    · exact hnew (ht r hr)
  · intro w x y hw
    exact ⟨trivial, hw⟩

theorem wpE_runDelayedJobsShared (timeout : ℕ) (hw : w.Serves) :
    Prog.wpE watchMonitor (runDelayedJobsShared decode statusUri timeout)
      (fun w' _ => w'.Serves) (fun w' _ => w'.Serves) w :=
  Prog.wpE_bind fun now => ⟨trivial, wpE_embed (deletes_runDelayedJobs timeout now) hw⟩

end Deletes

theorem wpE_selectAccept {timeout : Option Timeout} (hw : w.Serves)
    (hdeadline : w.deadline = some (timeout.map Timeout.deadline)) :
    Prog.wpE watchMonitor (selectAccept timeout) (fun w' _ => w'.Serves)
      (fun w' _ => w'.Serves) w := by
  refine Prog.wpE_bind fun ready => ⟨hdeadline, ?_⟩
  cases ready with
  | error e => exact hw
  | ok ready =>
      cases ready with
      | false => exact hw
      | true =>
          intro s _
          refine ⟨.inr (.inl ⟨hw.1, rfl, rfl⟩), ?_⟩
          by_cases hqueue : s.queue.tail = s.queue
          · rw [next_commit _ s _ hqueue]
            refine ⟨hw.1, ?_⟩
            rintro r (hr | ⟨hr, hnew⟩)
            · exact hw.2 r hr
            · exact hnew hr
          · rw [next_queue _ s _ hqueue]
            exact ⟨hw.1, fun _ h => h⟩

theorem wpE_waitNextJob (hw : w.Serves) :
    Prog.wpE watchMonitor waitNextJob (fun w' _ => w'.Serves)
      (fun w' _ => w'.Serves) w := by
  have hfirst : ∀ s : Shared, Prog.wpE watchMonitor (match s.table.first with
      | none => selectAccept none
      | some when_ => do
          let now ← quiet (query .time)
          if when_ - now ≤ 0 then return ()
          else selectAccept (some ⟨now, when_ - now⟩) : Task Unit)
      (fun w' _ => w'.Serves) (fun w' _ => w'.Serves)
      { w with deadline := some s.table.first } := by
    intro s
    cases hs : s.table.first with
    | none => exact wpE_selectAccept hw rfl
    | some when_ =>
        refine Prog.wpE_bind fun (now : ℤ) => ⟨trivial, ?_⟩
        have hnext : Prog.wpE watchMonitor (if when_ - now ≤ 0 then return ()
            else selectAccept (some ⟨now, when_ - now⟩) : Task Unit)
            (fun w' _ => w'.Serves) (fun w' _ => w'.Serves)
            { w with deadline := some (some when_) } := by
          by_cases hpast : when_ - now ≤ 0
          · rw [if_pos hpast]
            exact hw
          · rw [if_neg hpast]
            refine wpE_selectAccept hw ?_
            have hdeadline : now + (when_ - now) = when_ := by omega
            simp only [Option.map_some, Timeout.deadline, hdeadline]
        exact hnext
  exact Prog.wpE_bind fun s _ => ⟨hw.1, hfirst s⟩

theorem wpE_daemonRound {decode : String → String → Except Error Job}
    {statusUri : String → String → Except Error String} (timeout : ℕ) (hw : w.Serves) :
    Prog.wpE watchMonitor (daemonRound decode statusUri timeout) (fun w' _ => w'.Serves)
      (fun w' _ => w'.Serves) w :=
  Prog.wpE_bind (Prog.wpE_mono (fun _ _ hserves => wpE_waitNextJob hserves)
    (fun _ _ h => h) (wpE_runDelayedJobsShared timeout hw))

/-- A worker that pokes the daemon about all that it has committed. -/
theorem wpE_pokeDelayDaemon {rows : List JobRow} {E : Watch → Error → Prop}
    (hworker : ¬w.daemon) (howed : ∀ r, w.owed r → r ∈ rows) :
    Prog.wpE watchMonitor (pokeDelayDaemon rows) (fun w' _ => w'.Works) E w := by
  intro s _
  refine ⟨.inr (.inr (.inr ⟨hworker, rfl, rows, rfl, howed⟩)), ?_⟩
  rw [next_queue w s _ (by simp)]
  exact ⟨hworker, fun _ h => h⟩

theorem wpE_doPutDelayJob (runImmediately : Bool) (content : DelayContent)
    {E : Watch → Error → Prop} (hw : w.Works) :
    Prog.wpE watchMonitor (doPutDelayJob runImmediately content) (fun w' _ => w'.Works)
      E w := by
  refine Prog.wpE_bind fun now => ⟨trivial, ?_⟩
  refine Prog.wpE_bind fun s _ => ⟨.inr (.inr (.inl ⟨hw.1, rfl⟩)), ?_⟩
  simp only [next_table]
  refine wpE_pokeDelayDaemon hw.1 ?_
  rintro r (hr | ⟨hr, hnew⟩)
  · exact absurd hr (hw.2 r)
  · rcases List.mem_append.mp hr with hr | hr
    · exact absurd hr hnew
    · exact hr

theorem mem_withStatus_of_new {t : Table} {name : String} {time : ℤ} {r : JobRow}
    (hr : r ∈ (t.setTime name time).rows) (hnew : r ∉ t.rows) :
    r ∈ (t.setTime name time).withStatus name := by
  obtain ⟨r', hr', heq⟩ := List.mem_map.mp hr
  by_cases hname : r'.statusName = some name
  · rw [if_pos hname] at heq
    refine List.mem_filter.mpr ⟨hr, ?_⟩
    rw [← heq]
    simpa using hname
  · rw [if_neg hname] at heq
    exact absurd (heq ▸ hr') hnew

/-- A worker that changes the time of jobs. It ends without a poke only if it throws. -/
theorem wpE_reschedule (name : String) (time : ℤ) (hw : w.Works) :
    Prog.wpE watchMonitor (reschedule name time) (fun w' _ => w'.Works)
      (fun w' _ => w'.Works) w := by
  refine Prog.wpE_bind fun s _ => ⟨.inr (.inr (.inl ⟨hw.1, rfl⟩)), ?_⟩
  simp only [next_table]
  refine Prog.wpE_bind fun y => ⟨trivial, ?_⟩
  cases y with
  | error e => exact ⟨hw.1, fun _ h => h⟩
  | ok _ =>
      refine wpE_pokeDelayDaemon hw.1 ?_
      rintro r (hr | ⟨hr, hnew⟩)
      · exact absurd hr (hw.2 r)
      · exact mem_withStatus_of_new hr hnew

end Programs

theorem Table.first_le {t : Table} {r : JobRow} (hr : r ∈ t.rows) :
    ∃ d, t.first = some d ∧ d ≤ r.time := by
  have hsorted := List.pairwise_insertionSort (fun r r' : JobRow => r.time ≤ r'.time) t.rows
  have hmem := (List.mem_insertionSort (fun r r' : JobRow => r.time ≤ r'.time)).2 hr
  rw [Table.first]
  cases hrows : t.rows.insertionSort fun r r' => r.time ≤ r'.time with
  | nil =>
      rw [hrows] at hmem
      cases hmem
  | cons r₀ rest =>
      rw [hrows] at hmem hsorted
      refine ⟨r₀.time, rfl, ?_⟩
      rcases List.mem_cons.mp hmem with rfl | hrest
      · exact le_rfl
      · exact List.rel_of_pairwise_cons hsorted hrest

/-- No row is due before the time of the first one. -/
theorem not_earlier_first {t : Table} {r : JobRow} (hr : r ∈ t.rows) :
    ¬Earlier r.time t.first := by
  obtain ⟨d, hd, hle⟩ := t.first_le hr
  rw [hd]
  exact not_lt.mpr hle

section Runs

variable {ι : Type}

/-- The row is in the queue, or its worker is still to poke. -/
def Announced (s : Shared) (γ : ι → Watch) (r : JobRow) : Prop :=
  (∃ poke ∈ s.queue, r ∈ poke) ∨ ∃ j, (γ j).owed r

/-- The invariant: only the daemon `i₀` has a deadline, nobody has thrown, and every row
that is due before the deadline is announced. -/
structure Covered (i₀ : ι) (s : Shared) (γ : ι → Watch) : Prop where
  daemon : ∀ i, (γ i).daemon → i = i₀
  watching : ∀ i d, (γ i).deadline = some d → (γ i).daemon
  threw : ∀ i, ¬(γ i).threw
  announced : ∀ i d, (γ i).deadline = some d → ∀ r ∈ s.table.rows, Earlier r.time d →
    Announced s γ r

variable [DecidableEq ι] {i₀ i : ι} {s : Shared} {γ : ι → Watch}

theorem forall_update {P : ι → Watch → Prop} {w : Watch} (hw : P i w)
    (h : ∀ j, P j (γ j)) (j : ι) : P j (Function.update γ i w j) := by
  by_cases hj : j = i
  · subst hj
    rwa [Function.update_self]
  · rw [Function.update_of_ne hj]
    exact h j

/-- What is announced stays so if the process keeps its debts or puts them in the
queue. -/
theorem Announced.update {s' : Shared} {w : Watch} {r : JobRow} (h : Announced s γ r)
    (hqueue : ∀ poke ∈ s.queue, poke ∈ s'.queue)
    (howed : (γ i).owed r → w.owed r ∨ ∃ poke ∈ s'.queue, r ∈ poke) :
    Announced s' (Function.update γ i w) r := by
  rcases h with ⟨poke, hpoke, hr⟩ | ⟨j, hj⟩
  · exact .inl ⟨poke, hqueue poke hpoke, hr⟩
  · by_cases hji : j = i
    · subst hji
      rcases howed hj with hw | hpoke
      · exact .inr ⟨j, by rwa [Function.update_self]⟩
      · exact .inl hpoke
    · exact .inr ⟨j, by rwa [Function.update_of_ne hji]⟩

/-- A step of a process that is not the daemon, or of the daemon while it keeps its
deadline: the rows that are due stay announced. -/
theorem Covered.update (h : Covered i₀ s γ) {s' : Shared} {w : Watch}
    (hdaemon : w.daemon = (γ i).daemon) (hthrew : ¬w.threw)
    (hdeadline : w.deadline = (γ i).deadline)
    (hannounced : ∀ r ∈ s'.table.rows, (r ∈ s.table.rows → Announced s γ r) →
      Announced s' (Function.update γ i w) r) :
    Covered i₀ s' (Function.update γ i w) where
  daemon := forall_update (P := fun j w => w.daemon → j = i₀)
    (fun hw => h.daemon i (hdaemon ▸ hw)) h.daemon
  watching := forall_update (P := fun _ w => ∀ d, w.deadline = some d → w.daemon)
    (fun d hd => hdaemon ▸ h.watching i d (hdeadline ▸ hd)) h.watching
  threw := forall_update (P := fun _ w => ¬w.threw) hthrew h.threw
  announced := forall_update (P := fun _ w' => ∀ d, w'.deadline = some d →
      ∀ r ∈ s'.table.rows, Earlier r.time d → Announced s' (Function.update γ i w) r)
    (fun d hd r hr hearly => hannounced r hr fun hrs =>
      h.announced i d (hdeadline ▸ hd) r hrs hearly)
    (fun j d hd r hr hearly => hannounced r hr fun hrs => h.announced j d hd r hrs hearly)

/-- The daemon has a new deadline, for which nothing is to be announced, or none. -/
theorem Covered.restart (h : Covered i₀ s γ) {s' : Shared} {w : Watch}
    (hi : (γ i).daemon) (hdaemon : w.daemon = (γ i).daemon) (hthrew : ¬w.threw)
    (hnone : ∀ d, w.deadline = some d → ∀ r ∈ s'.table.rows, ¬Earlier r.time d) :
    Covered i₀ s' (Function.update γ i w) where
  daemon := forall_update (P := fun j w => w.daemon → j = i₀)
    (fun hw => h.daemon i (hdaemon ▸ hw)) h.daemon
  watching := forall_update (P := fun _ w => ∀ d, w.deadline = some d → w.daemon)
    (fun _ _ => hdaemon ▸ hi) h.watching
  threw := forall_update (P := fun _ w => ¬w.threw) hthrew h.threw
  announced := by
    intro j d hd r hr hearly
    by_cases hj : j = i
    · subst hj
      rw [Function.update_self] at hd
      exact absurd hearly (hnone d hd r hr)
    · rw [Function.update_of_ne hj] at hd
      have hj₀ := h.daemon j (h.watching j d hd)
      exact absurd (hj₀.trans (h.daemon i hi).symm) hj

/-- One event keeps the invariant. -/
theorem Covered.step (h : Covered i₀ s γ) {e : Event Shared Reply} (hat : e.At s)
    (hquiet : ∀ name time err, e ≠ .call (.setYtime name time) (.error err))
    (hguar : watchMonitor.guar (γ i) e) :
    Covered i₀ (e.after s) (Function.update γ i (watchMonitor.next (γ i) e)) := by
  have hdaemon := daemon_next (γ i) e
  cases e with
  | read s₁ =>
      cases hat
      refine h.restart hguar hdaemon (h.threw i) ?_
      rintro d hd r hr
      cases hd
      exact not_earlier_first hr
  | update s₁ s' =>
      cases hat
      have hkeep : ∀ w : Watch, (∀ r, (γ i).owed r → w.owed r) → s'.queue = s.queue →
          ∀ r, Announced s γ r → Announced s' (Function.update γ i w) r :=
        fun w howed hqueue r hr => hr.update (fun _ hpoke => hqueue ▸ hpoke)
          fun hi => .inl (howed r hi)
      rcases hguar with ⟨-, hqueue, hrows⟩ | ⟨hi, hqueue, htable⟩ | ⟨-, hqueue⟩ |
        ⟨hworker, htable, rows, hqueue, howed⟩
      · rw [next_commit _ _ _ hqueue] at hdaemon ⊢
        refine h.update hdaemon (h.threw i) rfl ?_
        intro r hr hold
        exact hkeep _ (fun _ hi => Or.inl hi) hqueue r (hold (hrows r hr))
      · by_cases hsame : s'.queue = s.queue
        · rw [next_commit _ _ _ hsame] at hdaemon ⊢
          refine h.update hdaemon (h.threw i) rfl ?_
          intro r hr hold
          exact hkeep _ (fun _ hi => Or.inl hi) hsame r (hold (htable ▸ hr))
        · rw [next_queue _ _ _ hsame] at hdaemon ⊢
          refine h.restart hi hdaemon (h.threw i) ?_
          rintro d hd
          cases hd
      · rw [next_commit _ _ _ hqueue] at hdaemon ⊢
        refine h.update hdaemon (h.threw i) rfl ?_
        intro r hr hold
        by_cases hrs : r ∈ s.table.rows
        · exact hkeep _ (fun _ hi => Or.inl hi) hqueue r (hold hrs)
        · exact .inr ⟨i, by rw [Function.update_self]; exact .inr ⟨hr, hrs⟩⟩
      · have hne : s'.queue ≠ s.queue := by rw [hqueue]; simp
        have hnone : (γ i).deadline = none := by
          cases hd : (γ i).deadline with
          | none => rfl
          | some d => exact absurd (h.watching i d hd) hworker
        rw [next_queue _ _ _ hne] at hdaemon ⊢
        refine h.update hdaemon (h.threw i) hnone.symm ?_
        intro r hr hold
        have hgrows : ∀ poke ∈ s.queue, poke ∈ s'.queue := by
          intro poke hpoke
          rw [hqueue]
          exact List.mem_append_left _ hpoke
        have hrows : rows ∈ s'.queue := by
          rw [hqueue]
          simp
        exact (hold (htable ▸ hr)).update hgrows fun hi => .inr ⟨rows, hrows, howed r hi⟩
  | call x y =>
      have hnext : watchMonitor.next (γ i) (.call x y) = γ i := by
        cases x with
        | setYtime name ytime =>
            cases y with
            | ok _ => rfl
            | error err => exact absurd rfl (hquiet name ytime err)
        | _ => rfl
      rw [hnext, Function.update_eq_self]
      exact h

/-- A process that is ready for its next job. -/
def Ready (w : Watch) (role : Role) : Prop :=
  (w.daemon ↔ role ≠ .worker) ∧ ∀ r, ¬w.owed r

theorem ready_worker {w : Watch} : Ready w .worker ↔ w.Works := by
  simp [Ready, Watch.Works]

theorem ready_daemon {w : Watch} {role : Role} (hrole : role ≠ .worker) :
    Ready w role ↔ w.Serves := by
  simp [Ready, Watch.Serves, hrole]

/-- The program of a worker. -/
theorem wp_worker {p : Task Unit} {w : Watch}
    (hp : Prog.wpE watchMonitor p (fun w' _ => w'.Works) (fun w' _ => w'.Works) w) :
    (do let _ ← p.run; return ((), Role.worker) : Prog Shared Reply (Unit × Role)).wp
      watchMonitor (fun w' r => Ready w' r.2) w := by
  refine Prog.wp_bind _ (Prog.wp_mono _ ?_ hp)
  intro w' r hr
  cases r with
  | ok _ => exact ready_worker.mpr hr
  | error _ => exact ready_worker.mpr hr

theorem wp_body (setup : Setup) (op : Op) (role : Role) {w : Watch} (hw : Ready w role) :
    (body setup op role).wp watchMonitor (fun w' r => Ready w' r.2) w := by
  cases op with
  | round =>
      cases role with
      | daemon =>
          have hserves := (ready_daemon (by decide)).mp hw
          refine Prog.wp_bind _ (Prog.wp_mono _ ?_ (wpE_daemonRound setup.timeout hserves))
          intro w' r hr
          cases r with
          | ok _ => exact (ready_daemon (by decide)).mpr hr
          | error _ => exact (ready_daemon (by decide)).mpr hr
      | stopped => exact hw
      | worker => exact hw
  | putDelayJob content =>
      cases role with
      | worker => exact wp_worker (wpE_doPutDelayJob _ content (ready_worker.mp hw))
      | daemon => exact hw
      | stopped => exact hw
  | postStatus name ytime =>
      cases role with
      | worker => exact wp_worker (wpE_reschedule name ytime (ready_worker.mp hw))
      | daemon => exact hw
      | stopped => exact hw
  | stopStatus name =>
      cases role with
      | worker => exact wp_worker (wpE_reschedule name 0 (ready_worker.mp hw))
      | daemon => exact hw
      | stopped => exact hw

/-- The worker does not throw between its commit and its poke. -/
def Pokes (_evs : List (ι × Event Shared Reply)) (_i : ι) (e : Event Shared Reply) : Prop :=
  ∀ name time err, e ≠ .call (.setYtime name time) (.error err)

theorem relyGuarantee_covered (setup : Setup) (i₀ : ι) :
    RelyGuarantee (body setup) watchMonitor Ready (fun _ _ w r => Ready w r.2)
      (fun _ s γ => Covered i₀ s γ) Pokes where
  body := fun op role _ hw => wp_body setup op role hw
  ready := fun _ _ _ _ h => h
  rely := fun _ _ _ _ _ => trivial
  step := fun _ _ _ _ _ h hat hquiet hguar => h.step hat hquiet hguar

/-- What is owed was committed in the events, with no change of the queue after it. -/
theorem committed_of_owed {es : List (Event Shared Reply)} {w : Watch} {r : JobRow}
    (hw : ¬w.owed r) (hr : (es.foldl watchMonitor.next w).owed r) :
    ∃ before s s' after, es = before ++ .update s s' :: after ∧ r ∈ s'.table.rows ∧
      r ∉ s.table.rows ∧ ∀ t t', .update t t' ∈ after → t'.queue = t.queue := by
  induction es using List.reverseRecOn with
  | nil => exact absurd hr hw
  | append_singleton es e ih =>
      rw [List.foldl_append, List.foldl_cons, List.foldl_nil] at hr
      generalize hw' : es.foldl watchMonitor.next w = w' at hr ih
      have hlater : w'.owed r → (∀ t t', e = .update t t' → t'.queue = t.queue) →
          ∃ before s s' after, es ++ [e] = before ++ .update s s' :: after ∧
            r ∈ s'.table.rows ∧ r ∉ s.table.rows ∧
            ∀ t t', .update t t' ∈ after → t'.queue = t.queue := by
        intro howed hsame
        obtain ⟨before, s, s', after, rfl, hnew, hold, hafter⟩ := ih howed
        refine ⟨before, s, s', after ++ [e], by simp, hnew, hold, ?_⟩
        intro t t' hmem
        rcases List.mem_append.mp hmem with hmem | hmem
        · exact hafter t t' hmem
        · exact hsame t t' (List.mem_singleton.mp hmem).symm
      cases e with
      | read s => exact hlater hr (by simp)
      | update s s' =>
          by_cases hqueue : s'.queue = s.queue
          · rw [next_commit _ _ _ hqueue] at hr
            rcases hr with hr | ⟨hnew, hold⟩
            · exact hlater hr (by rintro t t' ⟨⟩; exact hqueue)
            · exact ⟨es, s, s', [], rfl, hnew, hold, by simp⟩
          · rw [next_queue _ _ _ hqueue] at hr
            exact hr.elim
      | call x y =>
          cases x with
          | setYtime name time =>
              cases y with
              | ok _ => exact hlater hr (by simp)
              | error err => exact hr.elim
          | job x => exact hlater hr (by simp)
          | time => exact hlater hr (by simp)
          | select timeout => exact hlater hr (by simp)

/-- The processes at the start: one of them is the daemon. -/
def AtStart (i₀ : ι) (c : Config ι Shared Reply Role Op Unit) : Prop :=
  ∀ i, c.client i = .idle (if i = i₀ then .daemon else .worker)

/-- While the daemon waits in `select`, every row that is due before its deadline was
poked about in a connection that is still in the queue, or its worker has committed it
and has not poked yet. -/
theorem wakeup_not_missed (setup : Setup) (i₀ : ι)
    {c₀ c : Config ι Shared Reply Role Op Unit}
    {tr : List (Label ι Shared Reply Role Op Unit)} (h₀ : AtStart i₀ c₀)
    (hrun : Run (body setup) c₀ tr c)
    (hpokes : ∀ i name time err,
      (i, .call (.setYtime name time) (.error err)) ∉ events tr)
    {d : Option ℤ} (hblocked : BlockedUntil (c.client i₀) d) :
    ∀ r ∈ c.store.table.rows, Earlier r.time d →
      (∃ poke ∈ c.store.queue, r ∈ poke) ∨ ∃ j, OwesPoke (c.client j) r := by
  let g : ι → Watch := fun i => Watch.start (if i = i₀ then .daemon else .worker)
  have hstart : Covered i₀ c₀.store g := by
    refine ⟨fun i hi => ?_, ?_, fun _ h => h, ?_⟩
    · by_contra hne
      exact hi (if_neg hne)
    · rintro i d ⟨⟩
    · rintro i d ⟨⟩
  have hready : ∀ i, ∃ role, c₀.client i = .idle role ∧ Ready (g i) role :=
    fun i => ⟨_, h₀ i, Iff.rfl, fun _ h => h⟩
  have hmeets : Meets Pokes (events tr) := by
    intro pre i e post heq name time err he
    exact hpokes i name time err (by rw [heq, he]; simp)
  have hrg := relyGuarantee_covered setup i₀
  obtain ⟨hcovered, hkeeps, -⟩ := hrun.relyGuarantee hrg hstart hready hmeets
  obtain ⟨op, role, es, timeout, k, hclient, rfl⟩ := hblocked
  have hdeadline : (ghost watchMonitor g (events tr) i₀).deadline =
      some (timeout.map Timeout.deadline) := by
    have hkeep := hkeeps i₀
    rw [hclient] at hkeep
    exact (hkeep (.ok true)).1
  intro r hr hearly
  rcases hcovered.announced i₀ _ hdeadline r hr hearly with hqueue | ⟨j, hj⟩
  · exact .inl hqueue
  · refine .inr ⟨j, ?_⟩
    cases hj' : c.client j with
    | idle role' =>
        have hkeep := hkeeps j
        rw [hj'] at hkeep
        exact absurd hj (hkeep.2 r)
    | busy op' role' es' p' =>
        obtain ⟨w₁, hw₁, hghost⟩ := hrun.ghost_busy hrg hstart hready hmeets hj'
        rw [hghost] at hj
        obtain ⟨before, s, s', after, hes, hnew, hold, hafter⟩ :=
          committed_of_owed (hw₁.2 r) hj
        exact ⟨op', role', es', p', before, s, s', after, rfl, hes, hnew, hold, hafter⟩

end Runs

/-- The call of `select` that a process is in. -/
def selecting : Process → Option (Option Timeout)
  | .busy _ _ _ (.call (.select timeout) _) => some timeout
  | _ => none

theorem blockedUntil_of_selecting {process : Process} {timeout : Option Timeout}
    (h : selecting process = some timeout) :
    BlockedUntil process (timeout.map Timeout.deadline) := by
  cases process with
  | idle role => cases h
  | busy op role es p =>
      cases p with
      | call x k =>
          cases x with
          | select timeout' =>
              have htimeout : timeout' = timeout := Option.some.inj h
              subst htimeout
              exact ⟨op, role, es, timeout', k, rfl, rfl⟩
          | _ => cases h
      | _ => cases h

/-- One daemon and one worker, with an empty table. -/
def oneWorker : Config Bool Shared Reply Role Op Unit where
  store := ⟨⟨[], List.nodup_nil⟩, []⟩
  client := fun i => .idle (if i = true then .daemon else .worker)

/-- The daemon waits for ever, and then the worker adds a job and pokes it. -/
def addAndPoke : List (Move Bool Reply Op) :=
  [.call true .round, .answer true .time (5 : ℤ), .go true, .go true,
    .call false (.putDelayJob ⟨"do_thing", none, "envelope", 10⟩),
    .answer false .time (6 : ℤ), .go false, .go false]

/-- The event is no exception between a commit and its poke. -/
def ytimeKept : Event Shared Reply → Bool
  | .call (.setYtime _ _) (.error _) => false
  | _ => true

theorem wakeup_not_missed_poked :
    ∃ tr c, Run (body ⟨decodeAny, statusUriOf, 60, false⟩) oneWorker tr c ∧
      BlockedUntil (c.client true) none ∧
      ∃ r ∈ c.store.table.rows, (∃ poke ∈ c.store.queue, r ∈ poke) ∨
        ∃ j, OwesPoke (c.client j) r := by
  have hexec : (scheduleAll (body ⟨decodeAny, statusUriOf, 60, false⟩) oneWorker
      addAndPoke).map (fun x => (selecting (x.2.client true), x.2.store.table.rows,
        (events x.1).all fun ie => ytimeKept ie.2)) =
      some (some none, [⟨1, none, "do_thing", "envelope", 10, 6⟩], true) := by rfl
  obtain ⟨tr, c, hrun, hc⟩ := exists_run_of_scheduleAll hexec
  simp only [Prod.mk.injEq] at hc
  obtain ⟨hselect, hrows, hquiet⟩ := hc
  have hblocked := blockedUntil_of_selecting hselect
  have hpokes : ∀ i name time err,
      (i, Event.call (.setYtime name time) (.error err)) ∉ events tr := by
    intro i name time err hmem
    cases List.all_eq_true.mp hquiet _ hmem
  refine ⟨tr, c, hrun, hblocked, ⟨1, none, "do_thing", "envelope", 10, 6⟩,
    by rw [hrows]; simp, ?_⟩
  exact wakeup_not_missed _ true (fun _ => rfl) hrun hpokes hblocked _
    (by rw [hrows]; simp) trivial

end Delay

end Gearbox
