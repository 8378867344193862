import Gearbox.Agents.Plan

/-!
# The accounts of a pipeline

The labels of a run are counted by what they do, and the tasks of a pool are weighed by
what they are going to do. `Exec.waiting_le`, `Exec.running_eq`, `Exec.starting_eq`,
`Exec.decrementing_eq` and `Exec.exhausted_eq` say how one execution moves agents, level
jobs and decrements between the two. `Plan.Describes` says what the actions of a run
fire, so that the events can be counted by their causes. `Balanced` puts both together,
and `balanced_of_run` is its run lemma.
-/

namespace Gearbox

namespace Agents

open Interleaving

section Labels

/-- The job of the level with the given agents. -/
def Envelope.isLevel (agents : List String) : Envelope → Bool
  | .runlevel _ _ jobs => jobs.map Envelope.agentName = agents
  | _ => false

def Envelope.isDecrement (counter : ℕ) : Envelope → Bool
  | .decrement c _ => c = counter
  | _ => false

namespace Label

def dispatches (a : String) (l : Label) : Bool :=
  l.action = .dispatched a

/-- The agent `a` completes, whether it has failed or not. -/
def completes (a : String) (l : Label) : Bool :=
  match l.action with
  | .completed b _ => b = a
  | _ => false

/-- The agent `a` completes with code 0. -/
def succeeds (a : String) (l : Label) : Bool :=
  match l.action with
  | .completed b s => b = a ∧ s.code = 0
  | _ => false

/-- The job of the level with the given agents runs and goes ahead. -/
def starts (agents : List String) (l : Label) : Bool :=
  match l.action with
  | .started _ as => as = agents
  | _ => false

/-- The agent `a` is put into the queue of a worker. -/
def enqueues (a : String) (l : Label) : Bool :=
  match l.action with
  | .started _ as => a ∈ as
  | _ => false

/-- The event of the label starts the level with the given agents: it runs its job with
the status of a job that succeeded. -/
def triggers (agents : List String) (l : Label) : Bool :=
  match l.fires with
  | some (job, s) => job.isLevel agents && passes (some s)
  | none => false

/-- The event of the label makes the counter go down. -/
def reports (counter : ℕ) (l : Label) : Bool :=
  match l.fires with
  | some (job, s) => job.isDecrement counter && passes (some s)
  | none => false

def decrements (counter : ℕ) (l : Label) : Bool :=
  match l.action with
  | .decremented c _ => c = counter
  | _ => false

/-- A decrement leaves nothing. -/
def exhausts (counter : ℕ) (l : Label) : Bool :=
  match l.action with
  | .decremented c value => c = counter ∧ value ≤ 0
  | _ => false

def misses (counter : ℕ) (l : Label) : Bool :=
  l.action = .missing counter

def removes (counter : ℕ) (l : Label) : Bool :=
  match l.action with
  | .removed c _ => c = counter
  | _ => false

end Label

end Labels

section Weights

namespace Task

/-- How often `a` waits in the queue of a worker. -/
def waiting (a : String) : Task → ℕ
  | .afterwards jobs => jobs.countP fun job => job.agentName = a
  | _ => 0

/-- The agent `a` has been dispatched and has not completed. -/
def running (a : String) : Task → ℕ
  | .queued (.agent b _ _) _ => if b.name = a then 1 else 0
  | _ => 0

/-- The job of the level with the given agents is going to start it. -/
def starting (agents : List String) : Task → ℕ
  | .queued job event => if job.isLevel agents && passes event then 1 else 0
  | _ => 0

/-- A decrement that has not got the lock yet. -/
def decrementing (counter : ℕ) : Task → ℕ
  | .queued job event => if job.isDecrement counter && passes event then 1 else 0
  | .locking c _ _ => if c = counter then 1 else 0
  | _ => 0

/-- A decrement that has used the counter up and has not removed it yet. -/
def exhausted (counter : ℕ) : Task → ℕ
  | .removing c _ _ => if c = counter then 1 else 0
  | _ => 0

end Task

variable {P : Plan} {t : Task} {cs cs' : Counters} {l : Label} {new : List Task}

theorem sum_map_fire (w : Task → ℕ) (completed : Envelope) (event : Option EventStatus) :
    ((fire completed event).map w).sum
      = (event.map fun s => w (.queued completed (some s))).getD 0 := by
  cases event <;> simp [fire]

theorem waiting_fire (a : String) (completed : Envelope) (event : Option EventStatus) :
    ((fire completed event).map (Task.waiting a)).sum = 0 := by
  rw [sum_map_fire]
  cases event <;> rfl

/-- The queues of the workers: an agent that is dispatched has been enqueued. Agents may
also get lost. -/
theorem Exec.waiting_le (a : String) (ht : P.Belongs t) (h : Exec t cs l new cs') :
    (new.map (Task.waiting a)).sum + (if l.dispatches a then 1 else 0)
      ≤ Task.waiting a t + if l.enqueues a then 1 else 0 := by
  cases h with
  | aborted | cleared | crashed | opened | retried =>
      simp [Label.dispatches, Label.enqueues, Action.silent, Task.waiting]
  | started progress content jobs agents event _ resp hrun =>
      obtain ⟨i, hi, hjob⟩ := ht
      obtain ⟨hnames, -⟩ := P.agents_of_job hi hjob
      obtain ⟨-, hagents⟩ := doRunlevelGlobalAgents_ok hrun
      have hcount : agents.countP (fun job => job.agentName = a)
          = (P.agents i).count a := by
        rw [← hnames, ← agentName_setContent content, ← hagents, List.count,
          List.countP_map]
        rfl
      have hle := List.nodup_iff_count_le_one.mp (P.nodup i) a
      have hmem : a ∈ agents.map Envelope.agentName ↔ a ∈ P.agents i := by
        rw [hagents, agentName_setContent, hnames]
      simp only [Task.waiting, Label.dispatches, Label.enqueues, Action.silent,
        List.map_cons, List.map_nil, List.sum_cons, List.sum_nil, hcount, hmem]
      by_cases ha : a ∈ P.agents i
      · simp [ha]
        omega
      · simp [ha, List.count_eq_zero_of_not_mem ha]
  | dispatched job jobs =>
      simp only [Task.waiting, Label.dispatches, Label.enqueues, Action.silent,
        List.map_cons, List.map_nil, List.sum_cons, List.sum_nil, List.countP_cons]
      by_cases ha : job.agentName = a <;> simp [ha]
  | refused job jobs =>
      simp only [Task.waiting, Label.dispatches, Label.enqueues, Action.silent,
        List.map_cons, List.map_nil, List.sum_cons, List.sum_nil, List.countP_cons]
      by_cases ha : job.agentName = a <;> simp [ha]
  | completed | failed | missing | removed =>
      rw [waiting_fire]
      simp [Label.dispatches, Label.enqueues, Action.firing, Task.waiting]
  | decremented c completed event _ value =>
      split <;> simp [Label.dispatches, Label.enqueues, Action.silent, Task.waiting]

theorem running_job (a : String) {i : ℕ} (hi : i ≤ P.size) (event : Option EventStatus) :
    ((fire (P.job i) event).map (Task.running a)).sum = 0 := by
  obtain ⟨progress, content, jobs, hjob, -, -⟩ := P.job_eq i hi
  rw [sum_map_fire, hjob]
  cases event <;> rfl

theorem running_handler (a : String) {i : ℕ} (hi : i < P.size)
    (event : Option EventStatus) :
    ((fire (P.handler i) event).map (Task.running a)).sum = 0 := by
  rw [Plan.handler]
  cases P.counter i with
  | none => exact running_job a hi event
  | some c =>
      rw [sum_map_fire]
      cases event <;> rfl

/-- Every agent that was dispatched is running or has completed. -/
theorem Exec.running_eq (a : String) (ht : P.Belongs t) (h : Exec t cs l new cs') :
    (new.map (Task.running a)).sum + (if l.completes a then 1 else 0)
      = Task.running a t + if l.dispatches a then 1 else 0 := by
  cases h with
  | aborted | started | refused | cleared | crashed | opened | retried =>
      simp [Label.dispatches, Label.completes, Action.silent, Task.running]
  | dispatched job jobs =>
      obtain ⟨i, hi, hjobs⟩ := ht
      obtain ⟨b, content, rfl, -⟩ := hjobs job (by simp)
      simp [Label.dispatches, Label.completes, Action.silent, Task.running,
        Envelope.agentName]
  | completed b content completed =>
      obtain ⟨i, hi, -, rfl⟩ := ht
      rw [running_handler a hi]
      simp [Label.dispatches, Label.completes, Action.firing, Task.running]
  | failed c completed | missing c completed | removed c value completed =>
      obtain ⟨i, hi, -, rfl⟩ := ht
      rw [running_job a hi]
      simp [Label.dispatches, Label.completes, Action.firing, Task.running]
  | decremented c completed event _ value =>
      split <;> simp [Label.dispatches, Label.completes, Action.silent, Task.running]

theorem starting_fire (agents : List String) (action : Action) (completed : Envelope)
    (event : Option EventStatus) :
    ((fire completed event).map (Task.starting agents)).sum
      = if (action.firing completed event).triggers agents then 1 else 0 := by
  rw [sum_map_fire]
  cases event <;> rfl

/-- Every level that was triggered is starting or has started. -/
theorem Exec.starting_eq (agents : List String) (ht : P.Belongs t)
    (h : Exec t cs l new cs') :
    (new.map (Task.starting agents)).sum + (if l.starts agents then 1 else 0)
      = Task.starting agents t + if l.triggers agents then 1 else 0 := by
  cases h with
  | refused | cleared | retried =>
      simp [Label.starts, Label.triggers, Action.silent, Task.starting, Envelope.isLevel]
  | aborted progress content jobs event _ err hrun =>
      have hpass := doRunlevelGlobalAgents_error hrun
      simp [Label.starts, Label.triggers, Action.silent, Task.starting, hpass]
  | started progress content jobs agents' event _ resp hrun =>
      obtain ⟨hpass, hagents⟩ := doRunlevelGlobalAgents_ok hrun
      have hnames := agentName_setContent content jobs
      rw [← hagents] at hnames
      simp [Label.starts, Label.triggers, Action.silent, Task.starting, hpass,
        Envelope.isLevel, hnames]
  | dispatched job jobs =>
      obtain ⟨i, hi, hjobs⟩ := ht
      obtain ⟨b, content, rfl, -⟩ := hjobs job (by simp)
      simp [Label.starts, Label.triggers, Action.silent, Task.starting, Envelope.isLevel]
  | completed b content completed event _ status =>
      rw [starting_fire agents (.completed b.name status)]
      simp [Label.starts, Action.firing, Task.starting, Envelope.isLevel]
  | failed c completed =>
      rw [starting_fire agents (.failed c)]
      simp [Label.starts, Action.firing, Task.starting, Envelope.isLevel]
  | missing c completed =>
      rw [starting_fire agents (.missing c)]
      simp [Label.starts, Action.firing, Task.starting, Envelope.isLevel]
  | removed c value completed =>
      rw [starting_fire agents (.removed c value)]
      simp [Label.starts, Action.firing, Task.starting]
  | crashed | opened =>
      simp [Label.starts, Label.triggers, Action.silent, Task.starting, Envelope.isLevel]
  | decremented c completed event _ value =>
      split <;> simp [Label.starts, Label.triggers, Action.silent, Task.starting]

theorem decrementing_fire (counter : ℕ) (action : Action) (completed : Envelope)
    (event : Option EventStatus) :
    ((fire completed event).map (Task.decrementing counter)).sum
      = if (action.firing completed event).reports counter then 1 else 0 := by
  rw [sum_map_fire]
  cases event <;> rfl

/-- A decrement that was reported waits for the lock, has found the file, or not. -/
theorem Exec.decrementing_eq (c : ℕ) (ht : P.Belongs t) (h : Exec t cs l new cs') :
    (new.map (Task.decrementing c)).sum
        + (if l.decrements c || l.misses c then 1 else 0)
      = Task.decrementing c t + if l.reports c then 1 else 0 := by
  cases h with
  | aborted | started | refused | cleared =>
      simp [Label.decrements, Label.misses, Label.reports, Action.silent,
        Task.decrementing, Envelope.isDecrement]
  | dispatched job jobs =>
      obtain ⟨i, hi, hjobs⟩ := ht
      obtain ⟨b, content, rfl, -⟩ := hjobs job (by simp)
      simp [Label.decrements, Label.misses, Label.reports, Action.silent,
        Task.decrementing, Envelope.isDecrement]
  | completed b content completed event _ status =>
      rw [decrementing_fire c (.completed b.name status)]
      simp [Label.decrements, Label.misses, Action.firing, Task.decrementing,
        Envelope.isDecrement]
  | failed c' completed event _ s err hentry =>
      obtain ⟨hpass, hfails⟩ := decrementEntry_threw hentry
      rw [decrementing_fire c (.failed c')]
      simp [Label.decrements, Label.misses, Action.firing, Task.decrementing, hpass]
  | crashed c' completed event _ hentry =>
      have hpass := decrementEntry_crashed hentry
      simp [Label.decrements, Label.misses, Label.reports, Action.silent,
        Task.decrementing, hpass]
  | missing c' completed event _ hentry =>
      obtain ⟨hpass, -⟩ := decrementEntry_missing hentry
      rw [decrementing_fire c (.missing c'), Nat.add_comm]
      simp [Label.decrements, Label.misses, Action.firing, Task.decrementing, hpass,
        Envelope.isDecrement]
  | opened c' completed event _ hentry =>
      obtain ⟨hpass, -⟩ := decrementEntry_opens hentry
      simp [Label.decrements, Label.misses, Label.reports, Action.silent,
        Task.decrementing, hpass, Envelope.isDecrement]
  | decremented c' completed event _ value =>
      split <;> simp [Label.decrements, Label.misses, Label.reports, Action.silent,
        Task.decrementing]
  | retried c' completed event =>
      obtain ⟨i, hi, -, -, hpass⟩ := ht
      simp [Label.decrements, Label.misses, Label.reports, Action.silent,
        Task.decrementing, Envelope.isDecrement, hpass]
  | removed c' value completed =>
      rw [decrementing_fire c (.removed c' value)]
      simp [Label.decrements, Label.misses, Action.firing, Task.decrementing]

theorem exhausted_fire (c : ℕ) (completed : Envelope) (event : Option EventStatus) :
    ((fire completed event).map (Task.exhausted c)).sum = 0 := by
  rw [sum_map_fire]
  cases event <;> rfl

/-- A counter that is used up waits for its removal or is removed. -/
theorem Exec.exhausted_eq (c : ℕ) (h : Exec t cs l new cs') :
    (new.map (Task.exhausted c)).sum + (if l.removes c then 1 else 0)
      = Task.exhausted c t + if l.exhausts c then 1 else 0 := by
  cases h with
  | completed | failed | missing | removed =>
      rw [exhausted_fire]
      simp [Label.removes, Label.exhausts, Action.firing, Task.exhausted]
  | decremented c' completed event _ value =>
      split
      · have hpos : ¬ value - 1 ≤ 0 := by omega
        simp [Label.removes, Label.exhausts, Action.silent, Task.exhausted, hpos]
      · have hnonpos : value - 1 ≤ 0 := by omega
        simp [Label.removes, Label.exhausts, Action.silent, Task.exhausted, hnonpos]
  | _ => simp [Label.removes, Label.exhausts, Action.silent, Task.exhausted]

end Weights

section Descriptions

variable {P : Plan} {l : Label}

/-- What the actions of a run fire. -/
def Plan.Describes (P : Plan) (l : Label) : Prop :=
  match l.action with
  | .completed a s =>
      ∃ i, i < P.size ∧ a ∈ P.agents i ∧ s.progress = 100 ∧ l.fires = some (P.handler i, s)
  | .failed _ => ∀ job s, l.fires = some (job, s) → passes (some s) = false
  | .missing c => ∃ i s, i < P.size ∧ P.counter i = some c ∧
      l.fires = some (P.job (i + 1), s) ∧ passes (some s) = true
  | .removed c _ => ∃ i s, i < P.size ∧ P.counter i = some c ∧
      l.fires = some (P.job (i + 1), s) ∧ passes (some s) = true
  | .started _ agents => l.fires = none ∧ ∃ i, i ≤ P.size ∧ agents = P.agents i
  | _ => l.fires = none

theorem Exec.describes {t : Task} {cs cs' : Counters} {new : List Task}
    (ht : P.Belongs t) (h : Exec t cs l new cs') : P.Describes l := by
  cases h with
  | started progress content jobs agents event _ resp hrun =>
      obtain ⟨i, hi, hjob⟩ := ht
      obtain ⟨hnames, -⟩ := P.agents_of_job hi hjob
      obtain ⟨-, hagents⟩ := doRunlevelGlobalAgents_ok hrun
      refine ⟨rfl, i, hi, ?_⟩
      rw [hagents, agentName_setContent, hnames]
  | completed a content completed event _ status hfinal =>
      obtain ⟨i, hi, ha, rfl⟩ := ht
      exact ⟨i, hi, ha, hfinal.1, rfl⟩
  | failed c completed event _ s err hentry =>
      obtain ⟨-, hfails⟩ := decrementEntry_threw hentry
      intro job s' hfires
      obtain ⟨s'', hs'', heq⟩ := Option.map_eq_some_iff.mp hfires
      cases heq
      exact hfails s' hs''
  | missing c completed =>
      obtain ⟨i, hi, hc, rfl⟩ := ht
      exact ⟨i, _, hi, hc, rfl, rfl⟩
  | removed c value completed =>
      obtain ⟨i, hi, hc, rfl⟩ := ht
      exact ⟨i, _, hi, hc, rfl, rfl⟩
  | _ => rfl

theorem isLevel_job {i : ℕ} (hi : i ≤ P.size) (agents : List String) :
    (P.job i).isLevel agents = true ↔ P.agents i = agents := by
  obtain ⟨progress, content, jobs, hjob, hnames, -⟩ := P.job_eq i hi
  rw [hjob, Envelope.isLevel, hnames, decide_eq_true_iff]

theorem isDecrement_job {i : ℕ} (hi : i ≤ P.size) (c : ℕ) :
    (P.job i).isDecrement c = false := by
  obtain ⟨progress, content, jobs, hjob, -, -⟩ := P.job_eq i hi
  rw [hjob]
  rfl

theorem succeeds_iff {a : String} : l.succeeds a = true ↔
    ∃ s, l.action = .completed a s ∧ s.code = 0 := by
  rw [Label.succeeds]
  split
  next b s haction =>
    rw [haction, decide_eq_true_iff]
    constructor
    · intro h
      exact ⟨s, by rw [h.1], h.2⟩
    · intro h
      obtain ⟨s', heq, hcode⟩ := h
      cases heq
      exact ⟨rfl, hcode⟩
  next hne =>
    constructor
    · intro h
      cases h
    · intro h
      obtain ⟨s, heq, -⟩ := h
      exact absurd heq (hne a s)

theorem removes_iff {c : ℕ} : l.removes c = true ↔ ∃ value, l.action = .removed c value := by
  rw [Label.removes]
  split
  next c' value haction =>
    rw [haction, decide_eq_true_iff]
    constructor
    · intro h
      exact ⟨value, by rw [h]⟩
    · intro h
      obtain ⟨value', heq⟩ := h
      cases heq
      rfl
  next hne =>
    constructor
    · intro h
      cases h
    · intro h
      obtain ⟨value, heq⟩ := h
      exact absurd heq (hne c value)

theorem misses_iff {c : ℕ} : l.misses c = true ↔ l.action = .missing c := by
  rw [Label.misses, decide_eq_true_iff]

/-- A job runs with the status of a success if an agent has succeeded, or if a decrement
has used up its counter or has not found it. -/
theorem Plan.Describes.of_fires {job : Envelope} {s : EventStatus} (hl : P.Describes l)
    (hfires : l.fires = some (job, s)) (hpass : passes (some s) = true) :
    ∃ i, i < P.size ∧
      ((∃ a ∈ P.agents i, l.succeeds a = true ∧ job = P.handler i) ∨
        ∃ c, P.counter i = some c ∧ (l.removes c = true ∨ l.misses c = true) ∧
          job = P.job (i + 1)) := by
  rw [Plan.Describes] at hl
  cases haction : l.action with
  | completed b s' =>
      rw [haction] at hl
      obtain ⟨i, hi, hb, -, heq⟩ := hl
      rw [hfires] at heq
      cases heq
      have hcode : s.code = 0 := (of_decide_eq_true hpass).2
      exact ⟨i, hi, .inl ⟨b, hb, succeeds_iff.mpr ⟨s, haction, hcode⟩, rfl⟩⟩
  | missing c =>
      rw [haction] at hl
      obtain ⟨i, s', hi, hc, heq, -⟩ := hl
      rw [hfires] at heq
      cases heq
      exact ⟨i, hi, .inr ⟨c, hc, .inr (misses_iff.mpr haction), rfl⟩⟩
  | removed c value =>
      rw [haction] at hl
      obtain ⟨i, s', hi, hc, heq, -⟩ := hl
      rw [hfires] at heq
      cases heq
      exact ⟨i, hi, .inr ⟨c, hc, .inl (removes_iff.mpr ⟨value, haction⟩), rfl⟩⟩
  | failed c =>
      rw [haction] at hl
      rw [hl job s hfires] at hpass
      cases hpass
  | started progress agents =>
      rw [haction, hfires] at hl
      cases hl.1
  | _ =>
      rw [haction, hfires] at hl
      cases hl

theorem Plan.Describes.fires_of_succeeds {i : ℕ} {a : String} (hl : P.Describes l)
    (ha : a ∈ P.agents i) (hsucc : l.succeeds a = true) :
    ∃ s, l.fires = some (P.handler i, s) ∧ passes (some s) = true := by
  obtain ⟨s, haction, hcode⟩ := succeeds_iff.mp hsucc
  rw [Plan.Describes, haction] at hl
  obtain ⟨j, -, hj, hprogress, hfires⟩ := hl
  rw [P.unique j i a hj ha] at hfires
  exact ⟨s, hfires, by simp [passes, hprogress, hcode]⟩

theorem Plan.Describes.fires_of_counter {i c : ℕ} (hl : P.Describes l)
    (hc : P.counter i = some c) (hcounter : l.removes c = true ∨ l.misses c = true) :
    ∃ s, l.fires = some (P.job (i + 1), s) ∧ passes (some s) = true := by
  rw [Plan.Describes] at hl
  rcases hcounter with h | h
  · obtain ⟨value, haction⟩ := removes_iff.mp h
    rw [haction] at hl
    obtain ⟨j, s, -, hcj, hfires, hpass⟩ := hl
    rw [P.counter_inj j i c hcj hc] at hfires
    exact ⟨s, hfires, hpass⟩
  · rw [misses_iff.mp h] at hl
    obtain ⟨j, s, -, hcj, hfires, hpass⟩ := hl
    rw [P.counter_inj j i c hcj hc] at hfires
    exact ⟨s, hfires, hpass⟩

theorem triggers_eq_true {agents : List String} : l.triggers agents = true ↔
    ∃ job s, l.fires = some (job, s) ∧ job.isLevel agents = true ∧
      passes (some s) = true := by
  rw [Label.triggers]
  cases l.fires with
  | none => simp
  | some x =>
      obtain ⟨job, s⟩ := x
      simp

theorem reports_eq_true {c : ℕ} : l.reports c = true ↔
    ∃ job s, l.fires = some (job, s) ∧ job.isDecrement c = true ∧
      passes (some s) = true := by
  rw [Label.reports]
  cases l.fires with
  | none => simp
  | some x =>
      obtain ⟨job, s⟩ := x
      simp

theorem isLevel_handler {i : ℕ} {agents : List String}
    (h : (P.handler i).isLevel agents = true) :
    P.counter i = none ∧ (P.job (i + 1)).isLevel agents = true := by
  rw [Plan.handler] at h
  cases hc : P.counter i with
  | none =>
      rw [hc] at h
      exact ⟨rfl, h⟩
  | some c =>
      rw [hc] at h
      cases h

/-- What triggers a level stands in the level below it. -/
theorem Plan.Describes.exists_of_triggers {i : ℕ} (hl : P.Describes l) (hi : i ≤ P.size)
    (h : l.triggers (P.agents i) = true) :
    ∃ j, j + 1 = i ∧
      ((P.counter j = none ∧ ∃ a ∈ P.agents j, l.succeeds a = true) ∨
      ∃ c, P.counter j = some c ∧ (l.removes c = true ∨ l.misses c = true)) := by
  obtain ⟨job, s, hfires, hlevel, hpass⟩ := triggers_eq_true.mp h
  obtain ⟨j, hj, ⟨a, ha, hsucc, rfl⟩ | ⟨c, hc, hcounter, rfl⟩⟩ :=
    hl.of_fires hfires hpass
  · obtain ⟨hnone, hlevel⟩ := isLevel_handler hlevel
    have hji := P.agents_inj hj hi ((isLevel_job hj _).mp hlevel)
    exact ⟨j, hji, .inl ⟨hnone, a, ha, hsucc⟩⟩
  · have hji := P.agents_inj hj hi ((isLevel_job hj _).mp hlevel)
    exact ⟨j, hji, .inr ⟨c, hc, hcounter⟩⟩

/-- What starts the level after level `i`: the success of its agent if it has no counter,
and otherwise a decrement that has used up its counter or has not found it. -/
theorem Plan.Describes.triggers_iff {i : ℕ} (hl : P.Describes l) (hi : i < P.size) :
    l.triggers (P.agents (i + 1)) = true ↔
      (P.counter i = none ∧ ∃ a ∈ P.agents i, l.succeeds a = true) ∨
      ∃ c, P.counter i = some c ∧ (l.removes c = true ∨ l.misses c = true) := by
  constructor
  · intro h
    obtain ⟨j, hj, hcause⟩ := hl.exists_of_triggers hi h
    rw [Nat.succ_inj.mp hj] at hcause
    exact hcause
  · intro h
    rw [triggers_eq_true]
    have hlevel := (isLevel_job hi (P.agents (i + 1))).mpr rfl
    rcases h with ⟨hnone, a, ha, hsucc⟩ | ⟨c, hc, hcounter⟩
    · obtain ⟨s, hfires, hpass⟩ := hl.fires_of_succeeds ha hsucc
      rw [Plan.handler, hnone] at hfires
      exact ⟨_, s, hfires, hlevel, hpass⟩
    · obtain ⟨s, hfires, hpass⟩ := hl.fires_of_counter hc hcounter
      exact ⟨_, s, hfires, hlevel, hpass⟩

/-- What makes the counter of level `i` go down: the success of one of its agents. -/
theorem Plan.Describes.reports_iff {i c : ℕ} (hl : P.Describes l)
    (hc : P.counter i = some c) :
    l.reports c = true ↔ ∃ a ∈ P.agents i, l.succeeds a = true := by
  rw [reports_eq_true]
  constructor
  · intro h
    obtain ⟨job, s, hfires, hdec, hpass⟩ := h
    obtain ⟨j, hj, ⟨a, ha, hsucc, rfl⟩ | ⟨c', -, -, rfl⟩⟩ := hl.of_fires hfires hpass
    · rw [Plan.handler] at hdec
      cases hcj : P.counter j with
      | none =>
          rw [hcj, handlerOf, isDecrement_job hj] at hdec
          cases hdec
      | some c' =>
          rw [hcj] at hdec
          have hcc : c' = c := of_decide_eq_true hdec
          rw [P.counter_inj j i c (hcc ▸ hcj) hc] at ha
          exact ⟨a, ha, hsucc⟩
    · rw [isDecrement_job hj] at hdec
      cases hdec
  · intro h
    obtain ⟨a, ha, hsucc⟩ := h
    obtain ⟨s, hfires, hpass⟩ := hl.fires_of_succeeds ha hsucc
    refine ⟨_, s, hfires, ?_, hpass⟩
    rw [Plan.handler, hc]
    exact decide_eq_true rfl

/-- An agent is put into a queue when its level starts. -/
theorem Plan.Describes.enqueues_iff {i : ℕ} {a : String} (hl : P.Describes l)
    (ha : a ∈ P.agents i) :
    l.enqueues a = true ↔ l.starts (P.agents i) = true := by
  rw [Plan.Describes] at hl
  cases haction : l.action with
  | started progress agents =>
      rw [haction] at hl
      obtain ⟨-, j, hj, hagents⟩ := hl
      simp only [Label.enqueues, Label.starts, haction, decide_eq_true_iff]
      rw [hagents]
      constructor
      · intro h
        rw [P.unique j i a h ha]
      · intro h
        rw [h]
        exact ha
  | _ => simp [Label.enqueues, Label.starts, haction]

theorem Plan.Describes.exists_of_enqueues {a : String} (hl : P.Describes l)
    (h : l.enqueues a = true) : ∃ i, a ∈ P.agents i := by
  rw [Label.enqueues] at h
  split at h
  next progress agents haction =>
    rw [Plan.Describes, haction] at hl
    obtain ⟨-, i, -, hagents⟩ := hl
    exact ⟨i, hagents ▸ of_decide_eq_true h⟩
  next => cases h

end Descriptions

section Accounts

theorem countP_or_of_disjoint {α : Type} (q r : α → Bool)
    (h : ∀ x, q x = true → r x = false) (xs : List α) :
    xs.countP (fun x => q x || r x) = xs.countP q + xs.countP r := by
  induction xs with
  | nil => rfl
  | cons x xs ih =>
      simp only [List.countP_cons, ih]
      cases hq : q x with
      | true =>
          rw [h x hq]
          simp
          omega
      | false =>
          simp
          omega

/-- Counting what holds for one of several exclusive cases, case by case. -/
theorem countP_any_eq_sum {α β : Type} (q : β → α → Bool)
    (h : ∀ a b x, q a x = true → q b x = true → a = b) {as : List β} (has : as.Nodup)
    (xs : List α) :
    xs.countP (fun x => as.any fun a => q a x)
      = (as.map fun a => xs.countP (q a)).sum := by
  induction as with
  | nil => simp
  | cons a as ih =>
      rw [List.nodup_cons] at has
      have hdisjoint : ∀ x, q a x = true → (as.any fun b => q b x) = false := by
        intro x hx
        rw [List.any_eq_false]
        intro b hb hbx
        exact has.1 (h a b x hx hbx ▸ hb)
      simp only [List.any_cons, List.map_cons, List.sum_cons]
      rw [countP_or_of_disjoint _ _ hdisjoint, ih has.2]

/-- The pool in which the pipeline of the plan starts. -/
def Plan.start (P : Plan) (event : Option EventStatus) (cs : Counters) :
    Pool Counters Task :=
  ⟨cs, [.queued (P.job 0) event]⟩

/-- The accounts of a run: where the agents, the level jobs and the decrements of the
labels `tr` are in the pool `p`. -/
structure Balanced (P : Plan) (tr : List Label) (p : Pool Counters Task) : Prop where
  dispatched : ∀ i a, a ∈ P.agents i →
    tr.countP (Label.dispatches a) ≤ tr.countP (Label.starts (P.agents i))
  foreign : ∀ a, (∀ i, a ∉ P.agents i) → tr.countP (Label.dispatches a) = 0
  completed : ∀ a, p.total (Task.running a) + tr.countP (Label.completes a)
    = tr.countP (Label.dispatches a)
  first : tr.countP (Label.starts (P.agents 0)) ≤ 1
  started : ∀ i, i < P.size →
    p.total (Task.starting (P.agents (i + 1))) + tr.countP (Label.starts (P.agents (i + 1)))
      = tr.countP (Label.triggers (P.agents (i + 1)))
  triggeredBySuccess : ∀ i a, i < P.size → P.agents i = [a] →
    tr.countP (Label.triggers (P.agents (i + 1))) = tr.countP (Label.succeeds a)
  triggeredByCounter : ∀ i c, i < P.size → P.counter i = some c →
    tr.countP (Label.triggers (P.agents (i + 1)))
      = tr.countP (Label.removes c) + tr.countP (Label.misses c)
  reported : ∀ i c, P.counter i = some c →
    p.total (Task.decrementing c)
        + (tr.countP (Label.decrements c) + tr.countP (Label.misses c))
      = ((P.agents i).map fun a => tr.countP (Label.succeeds a)).sum
  exhausted : ∀ c, p.total (Task.exhausted c) + tr.countP (Label.removes c)
    = tr.countP (Label.exhausts c)

variable {P : Plan} {event : Option EventStatus} {cs : Counters} {tr : List Label}
  {p : Pool Counters Task}

theorem belongs_of_run (h : Pool.Run Exec (P.start event cs) tr p) :
    ∀ t ∈ p.tasks, P.Belongs t := by
  refine h.forall_tasks P.Belongs ?_ fun t σ l new σ' ht hexec => hexec.belongs ht
  intro t ht
  rw [List.mem_singleton.mp ht]
  exact belongs_job (Nat.zero_le _) event

theorem describes_of_run (h : Pool.Run Exec (P.start event cs) tr p) :
    ∀ l ∈ tr, P.Describes l :=
  h.forall_labels P.Belongs P.Describes (fun _ _ => belongs_of_run)
    fun _ _ _ _ _ ht hexec => hexec.describes ht

/-- A weight that counts no level job is 0 at the beginning. -/
theorem total_start (w : Task → ℕ)
    (hw : ∀ progress content jobs, w (.queued (.runlevel progress content jobs) event) = 0) :
    (P.start event cs).total w = 0 := by
  obtain ⟨progress, content, jobs, hjob, -, -⟩ := P.job_eq 0 (Nat.zero_le _)
  simp [Plan.start, Pool.total, hjob, hw]

theorem total_starting_start {i : ℕ} (hi : i < P.size) :
    (P.start event cs).total (Task.starting (P.agents (i + 1))) = 0 := by
  have hlevel : (P.job 0).isLevel (P.agents (i + 1)) = false := by
    rw [← Bool.not_eq_true, isLevel_job (Nat.zero_le _)]
    intro h
    exact absurd (P.agents_inj (Nat.zero_le _) hi h) (by omega)
  simp [Plan.start, Pool.total, Task.starting, hlevel]

theorem triggers_first (h : Pool.Run Exec (P.start event cs) tr p) :
    tr.countP (Label.triggers (P.agents 0)) = 0 := by
  rw [List.countP_eq_zero]
  intro l hl htriggers
  obtain ⟨j, hj, -⟩ :=
    (describes_of_run h l hl).exists_of_triggers (Nat.zero_le _) htriggers
  cases hj

theorem succeeds_unique {a b : String} {l : Label} (ha : l.succeeds a = true)
    (hb : l.succeeds b = true) : a = b := by
  obtain ⟨s, hs, -⟩ := succeeds_iff.mp ha
  obtain ⟨s', hs', -⟩ := succeeds_iff.mp hb
  rw [hs] at hs'
  cases hs'
  rfl

/-- Every label of an agent was announced by one that makes it wait. -/
theorem dispatches_le_enqueues (h : Pool.Run Exec (P.start event cs) tr p) (a : String) :
    tr.countP (Label.dispatches a) ≤ tr.countP (Label.enqueues a) := by
  have hbalance := h.balance_le (Task.waiting a) (Label.enqueues a) (Label.dispatches a)
    P.Belongs (fun _ _ => belongs_of_run) fun t σ l new σ' ht hexec => hexec.waiting_le a ht
  rw [total_start _ fun _ _ _ => rfl] at hbalance
  omega

/-- A decrement of a counter is no miss of it. -/
theorem misses_of_decrements {c : ℕ} {l : Label} (hl : l.decrements c = true) :
    l.misses c = false := by
  rw [Label.decrements] at hl
  split at hl
  next haction => simp [Label.misses, haction]
  next => cases hl

/-- The accounts of every run balance. -/
theorem balanced_of_run (h : Pool.Run Exec (P.start event cs) tr p) : Balanced P tr p where
  dispatched := by
    intro i a ha
    have hcongr : tr.countP (Label.enqueues a) = tr.countP (Label.starts (P.agents i)) :=
      List.countP_congr fun l hl => (describes_of_run h l hl).enqueues_iff ha
    rw [← hcongr]
    exact dispatches_le_enqueues h a
  foreign := by
    intro a ha
    have hzero : tr.countP (Label.enqueues a) = 0 := by
      rw [List.countP_eq_zero]
      intro l hl henqueues
      obtain ⟨i, hi⟩ := (describes_of_run h l hl).exists_of_enqueues henqueues
      exact ha i hi
    have hle := dispatches_le_enqueues h a
    omega
  completed := by
    intro a
    have hbalance := h.balance (Task.running a) (Label.dispatches a) (Label.completes a)
      P.Belongs (fun _ _ => belongs_of_run) fun t σ l new σ' ht hexec => hexec.running_eq a ht
    rw [total_start _ fun _ _ _ => rfl] at hbalance
    omega
  first := by
    have hbalance := h.balance (Task.starting (P.agents 0)) (Label.triggers (P.agents 0))
      (Label.starts (P.agents 0)) P.Belongs (fun _ _ => belongs_of_run)
      fun t σ l new σ' ht hexec => hexec.starting_eq _ ht
    have hinit : (P.start event cs).total (Task.starting (P.agents 0)) ≤ 1 := by
      simp only [Plan.start, Pool.total, Task.starting, List.map_cons, List.map_nil,
        List.sum_cons, List.sum_nil]
      split <;> omega
    have hzero := triggers_first h
    omega
  started := by
    intro i hi
    have hbalance := h.balance (Task.starting (P.agents (i + 1)))
      (Label.triggers (P.agents (i + 1))) (Label.starts (P.agents (i + 1))) P.Belongs
      (fun _ _ => belongs_of_run) fun t σ l new σ' ht hexec => hexec.starting_eq _ ht
    rw [total_starting_start hi] at hbalance
    omega
  triggeredBySuccess := by
    intro i a hi ha
    refine List.countP_congr fun l hl => ?_
    have hnone : P.counter i = none := by
      rw [P.counter_eq_none i hi, ha]
      rfl
    rw [(describes_of_run h l hl).triggers_iff hi, hnone, ha]
    simp
  triggeredByCounter := by
    intro i c hi hc
    rw [← countP_or_of_disjoint]
    · refine List.countP_congr fun l hl => ?_
      rw [(describes_of_run h l hl).triggers_iff hi, hc]
      simp
    · intro l hl
      obtain ⟨value, haction⟩ := removes_iff.mp hl
      simp [Label.misses, haction]
  reported := by
    intro i c hc
    have hbalance := h.balance (Task.decrementing c) (Label.reports c)
      (fun l => l.decrements c || l.misses c) P.Belongs (fun _ _ => belongs_of_run)
      fun t σ l new σ' ht hexec => hexec.decrementing_eq c ht
    have hreports : tr.countP (Label.reports c) =
        ((P.agents i).map fun a => tr.countP (Label.succeeds a)).sum := by
      rw [← countP_any_eq_sum Label.succeeds (fun a b l => succeeds_unique) (P.nodup i)]
      refine List.countP_congr fun l hl => ?_
      rw [(describes_of_run h l hl).reports_iff hc, List.any_eq_true]
    rw [total_start _ fun _ _ _ => rfl,
      countP_or_of_disjoint _ _ fun l => misses_of_decrements, hreports, Nat.zero_add] at hbalance
    omega
  exhausted := by
    intro c
    have hbalance := h.balance (Task.exhausted c) (Label.exhausts c) (Label.removes c)
      P.Belongs (fun _ _ => belongs_of_run) fun t σ l new σ' _ hexec => hexec.exhausted_eq c
    rw [total_start _ fun _ _ _ => rfl] at hbalance
    omega

end Accounts

end Agents

end Gearbox
