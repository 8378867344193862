import Mathlib.Data.List.Count
import Mathlib.Data.List.GetD
import Gearbox.Agents.Queue
import Gearbox.Assoc.Sorted
import Gearbox.Json.Tree

/-!
# The run of a queue

`JobManager::job_queue_run` runs the jobs of a queue in the process that calls it. For one
batch after the other it dispatches all the jobs and then polls their statuses, the first one
until it has completed, then the next. Its state is a place in these loops, the queue `jq` of
the responses and the map `timer`. What the surroundings answer at a step is a `Reading`: the
clock, and the progress and the code of the status that is synchronised. The calls `run` and
`sync` do not throw here.

A response does not hold the job that was run but a copy, which `JobImpl::job` makes. A job is
known by the address of its object, so that the copy is another job for the map `timer`.
-/

namespace Gearbox

namespace Agents

/-- A pointer to a job, with what is read of it. -/
structure JobPtr where
  address : ℕ
  name : String
  timeout : ℤ
  deriving DecidableEq, Repr

/-- The place of a job in a queue: its batch, and its number there. -/
abbrev Place : Type :=
  ℕ × ℕ

/-- The response of a job. Its status is named by the place of the job that was run. -/
structure JobResponse where
  job : JobPtr
  status : Place
  deriving DecidableEq, Repr

/-- What is read at one step. -/
structure Reading where
  clock : ℤ
  progress : ℕ
  code : ℤ
  deriving DecidableEq, Repr

/-- What one step does. -/
inductive RunEvent where
  | dispatched (place : Place) (clock : ℤ)
  | polled (place : Place) (reading : Reading)
  deriving DecidableEq, Repr

/-- The place in the loops. -/
inductive RunPhase where
  | dispatching (i j : ℕ)
  | polling (i : ℕ)
  | returned
  | threw (err : Error)
  deriving DecidableEq, Repr

/-- The state of `job_queue_run`; `next` is the address of the next object. -/
structure RunState where
  phase : RunPhase
  jq : List JobResponse
  timer : List (ℕ × ℤ × ℤ)
  next : ℕ
  deriving DecidableEq, Repr

def timeoutError (name : String) : Error :=
  ⟨500, "Agent '" ++ name ++ "' exceeded timeout!"⟩

def codeError (name : String) (code : ℤ) : Error :=
  ⟨500, "Agent '" ++ name ++ "' returned status code " ++ toString code⟩

/-- `JobImpl::job`, a new job with a copy of the implementation. -/
def JobPtr.copy (job : JobPtr) (address : ℕ) : JobPtr :=
  { job with address := address }

/-- `GearmanJobImpl::run` and `RestJobImpl::run`, as far as the response is concerned. -/
def JobPtr.run (job : JobPtr) (place : Place) (next : ℕ) : JobResponse where
  job := job.copy next
  status := place

/-- The body of the loop that dispatches the jobs of a batch. -/
def RunState.dispatch (s : RunState) (job : JobPtr) (i j : ℕ) (clock : ℤ) : RunState where
  phase := .dispatching i (j + 1)
  jq := s.jq ++ [job.run (i, j) s.next]
  timer := if job.timeout = 0 then s.timer
    else Assoc.assign job.address (clock, job.timeout) s.timer
  next := s.next + 1

/-- The job has a timer, and the timer is over. -/
def RunState.timedOut (s : RunState) (job : JobPtr) (clock : ℤ) : Bool :=
  match s.timer.lookup job.address with
  | some (start, timeout) => timeout ≠ 0 && timeout ≤ Json.toInt32 (clock - start)
  | none => false

/-- The body of the loop that polls the responses, for the one at the front. -/
def RunState.poll (s : RunState) (resp : JobResponse) (rest : List JobResponse)
    (r : Reading) : RunState :=
  if r.progress ≠ 100 then
    if s.timedOut resp.job r.clock then { s with phase := .threw (timeoutError resp.job.name) }
    else s
  else if r.code ≠ 0 then { s with phase := .threw (codeError resp.job.name r.code) }
  else { s with jq := rest }

/-- The next batch, or the end. -/
def enter (q : List (List JobPtr)) (i : ℕ) : RunPhase :=
  if i < q.length then .dispatching i 0 else .returned

/-- One step of `job_queue_run`, and what it does. -/
def runStep (q : List (List JobPtr)) (r : Reading) (s : RunState) :
    RunState × List RunEvent :=
  match s.phase with
  | .dispatching i j =>
      match (q.getD i [])[j]? with
      | some job => (s.dispatch job i j r.clock, [.dispatched (i, j) r.clock])
      | none => ({ s with phase := .polling i }, [])
  | .polling i =>
      match s.jq with
      | [] => ({ s with phase := enter q (i + 1) }, [])
      | resp :: rest => (s.poll resp rest r, [.polled resp.status r])
  | .returned => (s, [])
  | .threw _ => (s, [])

section Step

variable {q : List (List JobPtr)} {s : RunState} {i j : ℕ}

theorem runStep_dispatch (hphase : s.phase = .dispatching i j) {job : JobPtr}
    (hjob : (q.getD i [])[j]? = some job) (r : Reading) :
    runStep q r s = (s.dispatch job i j r.clock, [.dispatched (i, j) r.clock]) := by
  simp only [runStep, hphase, hjob]

theorem runStep_dispatched (hphase : s.phase = .dispatching i j)
    (hjob : (q.getD i [])[j]? = none) (r : Reading) :
    runStep q r s = ({ s with phase := .polling i }, []) := by
  simp only [runStep, hphase, hjob]

theorem runStep_poll (hphase : s.phase = .polling i) {resp : JobResponse}
    {rest : List JobResponse} (hjq : s.jq = resp :: rest) (r : Reading) :
    runStep q r s = (s.poll resp rest r, [.polled resp.status r]) := by
  simp only [runStep, hphase, hjq]

theorem runStep_enter (hphase : s.phase = .polling i) (hjq : s.jq = []) (r : Reading) :
    runStep q r s = ({ s with phase := enter q (i + 1) }, []) := by
  rw [runStep, hphase]
  dsimp only
  rw [hjq]

theorem runStep_returned (hphase : s.phase = .returned) (r : Reading) :
    runStep q r s = (s, []) := by
  simp only [runStep, hphase]

theorem runStep_threw {err : Error} (hphase : s.phase = .threw err) (r : Reading) :
    runStep q r s = (s, []) := by
  simp only [runStep, hphase]

end Step

/-- The state at the beginning. The jobs of the queue are objects with smaller addresses than
those that are made later. -/
def runStart (q : List (List JobPtr)) : RunState where
  phase := enter q 0
  jq := []
  timer := []
  next := (q.flatten.map JobPtr.address).foldl max 0 + 1

/-- `JobManager::job_queue_run` for a sequence of readings: the state that it has come to, and
what it has done. -/
def jobQueueRun (q : List (List JobPtr)) (rs : List Reading) : RunState × List RunEvent :=
  rs.foldl (fun x r => ((runStep q r x.1).1, x.2 ++ (runStep q r x.1).2)) (runStart q, [])

theorem jobQueueRun_snoc (q : List (List JobPtr)) (rs : List Reading) (r : Reading) :
    jobQueueRun q (rs ++ [r]) = ((runStep q r (jobQueueRun q rs).1).1,
      (jobQueueRun q rs).2 ++ (runStep q r (jobQueueRun q rs).1).2) := by
  rw [jobQueueRun, List.foldl_append]
  rfl

section Events

/-- The number of jobs of a batch. -/
def size (q : List (List JobPtr)) (i : ℕ) : ℕ :=
  (q.getD i []).length

/-- The event dispatches the job of the place. -/
def RunEvent.dispatches (p : Place) : RunEvent → Bool
  | .dispatched p' _ => p' = p
  | .polled _ _ => false

/-- The job of the place was observed with progress 100 and code 0. -/
def Succeeded (tr : List RunEvent) (p : Place) : Prop :=
  ∃ r, RunEvent.polled p r ∈ tr ∧ r.progress = 100 ∧ r.code = 0

/-- The job of the place was dispatched once and has succeeded. -/
def Done (tr : List RunEvent) (p : Place) : Prop :=
  tr.countP (RunEvent.dispatches p) = 1 ∧ Succeeded tr p

/-- Before a job is dispatched, all jobs of the batches below are done. -/
def RespectsBatches (q : List (List JobPtr)) (tr : List RunEvent) : Prop :=
  ∀ pre p clock post, tr = pre ++ .dispatched p clock :: post →
    ∀ i < p.1, ∀ j < size q i, Done pre (i, j)

theorem respectsBatches_snoc {q : List (List JobPtr)} {tr : List RunEvent} {e : RunEvent}
    (h : RespectsBatches q tr) (he : ∀ p clock, e = .dispatched p clock →
      ∀ i < p.1, ∀ j < size q i, Done tr (i, j)) : RespectsBatches q (tr ++ [e]) := by
  intro pre p clock post heq
  rcases List.eq_nil_or_concat post with rfl | ⟨post, x, rfl⟩
  · obtain ⟨hpre, hlast⟩ := List.append_inj' heq rfl
    rw [← hpre]
    exact he p clock (List.singleton_inj.mp hlast)
  · rw [List.concat_eq_append, ← List.cons_append, ← List.append_assoc] at heq
    exact h pre p clock post (List.append_inj' heq rfl).1

theorem Succeeded.append {tr : List RunEvent} {p : Place} (h : Succeeded tr p)
    (tr' : List RunEvent) : Succeeded (tr ++ tr') p := by
  obtain ⟨r, hr, hcode⟩ := h
  exact ⟨r, List.mem_append_left _ hr, hcode⟩

end Events

section Batches

variable {q : List (List JobPtr)} {s : RunState} {tr : List RunEvent} {i j k : ℕ}

/-- The phases in which `j` jobs of batch `i` have been dispatched and `k` have succeeded. -/
inductive InPhase (q : List (List JobPtr)) : RunPhase → ℕ → ℕ → ℕ → Prop where
  | dispatching {i j : ℕ} (h : j ≤ size q i) : InPhase q (.dispatching i j) i j 0
  | polling {i k : ℕ} (h : k ≤ size q i) : InPhase q (.polling i) i (size q i) k
  | returned {i : ℕ} (h : q.length ≤ i) : InPhase q .returned i 0 0
  | threw {i j k : ℕ} (err : Error) : InPhase q (.threw err) i j k

/-- The place is in a batch below `i`, or among the first `n` of batch `i`. -/
def Before (q : List (List JobPtr)) (i n : ℕ) (p : Place) : Prop :=
  p.1 < i ∧ p.2 < size q p.1 ∨ p.1 = i ∧ p.2 < n

/-- What holds when `j` jobs of batch `i` have been dispatched and `k` have succeeded. -/
structure RunInv (q : List (List JobPtr)) (s : RunState) (tr : List RunEvent) (i j k : ℕ) :
    Prop where
  phase : InPhase q s.phase i j k
  once : ∀ p, Before q i j p → tr.countP (RunEvent.dispatches p) = 1
  never : ∀ p, ¬ Before q i j p → tr.countP (RunEvent.dispatches p) = 0
  succeeded : ∀ p, Before q i k p → Succeeded tr p
  jq : s.jq.map JobResponse.status = (List.range' k (j - k)).map (Prod.mk i)
  failed : ∀ p r, RunEvent.polled p r ∈ tr → r.progress = 100 → r.code ≠ 0 →
    (∃ err, s.phase = .threw err) ∧ p.1 = i

theorem RunInv.done (h : RunInv q s tr i j k) {a b : ℕ} (ha : a < i) (hb : b < size q a) :
    Done tr (a, b) :=
  ⟨h.once (a, b) (.inl ⟨ha, hb⟩), h.succeeded (a, b) (.inl ⟨ha, hb⟩)⟩

theorem inPhase_enter (q : List (List JobPtr)) (i : ℕ) : InPhase q (enter q i) i 0 0 := by
  rw [enter]
  split
  · exact .dispatching (Nat.zero_le _)
  · exact .returned (by omega)

theorem runInv_start (q : List (List JobPtr)) : RunInv q (runStart q) [] 0 0 0 where
  phase := inPhase_enter q 0
  once := by
    rintro p (⟨hlt, -⟩ | ⟨-, hlt⟩)
    · exact absurd hlt (Nat.not_lt_zero _)
    · exact absurd hlt (Nat.not_lt_zero _)
  never := fun _ _ => rfl
  succeeded := by
    rintro p (⟨hlt, -⟩ | ⟨-, hlt⟩)
    · exact absurd hlt (Nat.not_lt_zero _)
    · exact absurd hlt (Nat.not_lt_zero _)
  jq := rfl
  failed := fun p r hmem => (nomatch hmem)

theorem before_succ {n : ℕ} {p : Place} :
    Before q i (n + 1) p ↔ Before q i n p ∨ p = (i, n) := by
  obtain ⟨a, b⟩ := p
  simp only [Before, Prod.mk.injEq]
  omega

theorem before_next {p : Place} : Before q (i + 1) 0 p ↔ Before q i (size q i) p := by
  obtain ⟨a, b⟩ := p
  simp only [Before]
  constructor
  · rintro (⟨ha, hb⟩ | ⟨-, hb⟩)
    · rcases Nat.lt_succ_iff_lt_or_eq.mp ha with ha | rfl
      · exact .inl ⟨ha, hb⟩
      · exact .inr ⟨rfl, hb⟩
    · exact absurd hb (Nat.not_lt_zero _)
  · rintro (⟨ha, hb⟩ | ⟨rfl, hb⟩)
    · exact .inl ⟨by omega, hb⟩
    · exact .inl ⟨by omega, hb⟩

theorem RunInv.dispatch (h : RunInv q s tr i j 0) (hphase : s.phase = .dispatching i j)
    {job : JobPtr} (hjob : (q.getD i [])[j]? = some job) (clock : ℤ) :
    RunInv q (s.dispatch job i j clock) (tr ++ [.dispatched (i, j) clock]) i (j + 1) 0 where
  phase := .dispatching (List.getElem?_eq_some_iff.mp hjob).1
  once := by
    intro p hp
    rw [List.countP_append, List.countP_singleton]
    rcases before_succ.mp hp with hp | rfl
    · have hne : (i, j) ≠ p := by
        rintro rfl
        rcases hp with ⟨hlt, -⟩ | ⟨-, hlt⟩
        · exact Nat.lt_irrefl _ hlt
        · exact Nat.lt_irrefl _ hlt
      rw [h.once p hp, if_neg (by simp [RunEvent.dispatches, hne])]
    · have hnot : ¬ Before q i j (i, j) := by
        rintro (⟨hlt, -⟩ | ⟨-, hlt⟩)
        · exact Nat.lt_irrefl _ hlt
        · exact Nat.lt_irrefl _ hlt
      rw [h.never _ hnot, if_pos (by simp [RunEvent.dispatches])]
  never := by
    intro p hp
    rw [before_succ, not_or] at hp
    have hne : (i, j) ≠ p := fun heq => hp.2 heq.symm
    rw [List.countP_append, List.countP_singleton, h.never p hp.1,
      if_neg (by simp [RunEvent.dispatches, hne])]
  succeeded := fun p hp => (h.succeeded p hp).append _
  jq := by
    have hjq := h.jq
    rw [Nat.sub_zero] at hjq ⊢
    rw [RunState.dispatch, List.map_append, hjq, List.range'_concat, List.map_append]
    simp [JobPtr.run]
  failed := by
    intro p r hmem hprogress hcode
    simp only [List.mem_append, List.mem_singleton, reduceCtorEq, or_false] at hmem
    obtain ⟨⟨err, herr⟩, -⟩ := h.failed p r hmem hprogress hcode
    rw [hphase] at herr
    cases herr

/-- A poll does not dispatch anything. -/
theorem countP_polled (tr : List RunEvent) (p p' : Place) (r : Reading) :
    (tr ++ [RunEvent.polled p' r]).countP (RunEvent.dispatches p) =
      tr.countP (RunEvent.dispatches p) := by
  rw [List.countP_append, List.countP_singleton, if_neg (by simp [RunEvent.dispatches]),
    Nat.add_zero]

/-- A poll after which the front of the queue is the same. -/
theorem RunInv.polled {s' : RunState} (h : RunInv q s tr i j k) {b : ℕ} {r : Reading}
    (hphase : InPhase q s'.phase i j k) (hjq : s'.jq = s.jq)
    (hkept : ∀ err, s.phase = .threw err → s'.phase = .threw err)
    (hfailed : r.progress = 100 → r.code ≠ 0 → ∃ err, s'.phase = .threw err) :
    RunInv q s' (tr ++ [.polled (i, b) r]) i j k where
  phase := hphase
  once := fun p hp => (countP_polled tr p _ r).trans (h.once p hp)
  never := fun p hp => (countP_polled tr p _ r).trans (h.never p hp)
  succeeded := fun p hp => (h.succeeded p hp).append _
  jq := by rw [hjq, h.jq]
  failed := by
    intro p r' hmem hprogress hcode
    simp only [List.mem_append, List.mem_singleton, RunEvent.polled.injEq] at hmem
    rcases hmem with hmem | ⟨rfl, rfl⟩
    · obtain ⟨⟨err, herr⟩, hi⟩ := h.failed p r' hmem hprogress hcode
      exact ⟨⟨err, hkept err herr⟩, hi⟩
    · exact ⟨hfailed hprogress hcode, rfl⟩

/-- A poll after which the front of the queue has succeeded. -/
theorem RunInv.popped (h : RunInv q s tr i (size q i) k) (hphase : s.phase = .polling i)
    {rest : List JobResponse} (hrest : rest.map JobResponse.status =
      (List.range' (k + 1) (size q i - (k + 1))).map (Prod.mk i)) (hk : k < size q i)
    {r : Reading} (hprogress : r.progress = 100) (hcode : r.code = 0) :
    RunInv q { s with jq := rest } (tr ++ [.polled (i, k) r]) i (size q i) (k + 1) where
  phase := by
    rw [hphase]
    exact .polling hk
  once := fun p hp => (countP_polled tr p _ r).trans (h.once p hp)
  never := fun p hp => (countP_polled tr p _ r).trans (h.never p hp)
  succeeded := by
    intro p hp
    rcases before_succ.mp hp with hp | rfl
    · exact (h.succeeded p hp).append _
    · exact ⟨r, by simp, hprogress, hcode⟩
  jq := hrest
  failed := by
    intro p r' hmem hprogress' hcode'
    simp only [List.mem_append, List.mem_singleton, RunEvent.polled.injEq] at hmem
    rcases hmem with hmem | ⟨-, rfl⟩
    · obtain ⟨⟨err, herr⟩, -⟩ := h.failed p r' hmem hprogress' hcode'
      rw [hphase] at herr
      cases herr
    · exact absurd hcode hcode'

theorem RunInv.advance {phase : RunPhase} {i' j' k' : ℕ} (h : RunInv q s tr i j k)
    (hphase : InPhase q phase i' j' k') (hj : ∀ p, Before q i' j' p ↔ Before q i j p)
    (hk : ∀ p, Before q i' k' p ↔ Before q i k p)
    (hjq : (List.range' k (j - k)).map (Prod.mk i) =
      (List.range' k' (j' - k')).map (Prod.mk i'))
    (hrunning : ∀ err, s.phase ≠ .threw err) :
    RunInv q { s with phase := phase } tr i' j' k' where
  phase := hphase
  once := fun p hp => h.once p ((hj p).mp hp)
  never := fun p hp => h.never p (fun hp' => hp ((hj p).mpr hp'))
  succeeded := fun p hp => h.succeeded p ((hk p).mp hp)
  jq := h.jq.trans hjq
  failed := by
    intro p r hmem hprogress hcode
    obtain ⟨⟨err, herr⟩, -⟩ := h.failed p r hmem hprogress hcode
    exact absurd herr (hrunning err)

/-- The front of the queue is the first job of the batch that has not succeeded. -/
theorem RunInv.front (h : RunInv q s tr i j k) {resp : JobResponse} {rest : List JobResponse}
    (hjq : s.jq = resp :: rest) : resp.status = (i, k) ∧ k < j ∧
      rest.map JobResponse.status = (List.range' (k + 1) (j - (k + 1))).map (Prod.mk i) := by
  have hmap := h.jq
  rw [hjq, List.map_cons] at hmap
  obtain ⟨n, hn⟩ : ∃ n, j - k = n + 1 := by
    cases hjk : j - k with
    | zero =>
        rw [hjk] at hmap
        cases hmap
    | succ n => exact ⟨n, rfl⟩
  rw [hn, List.range'_succ, List.map_cons, List.cons.injEq] at hmap
  have hlength : j - (k + 1) = n := by omega
  rw [hlength]
  exact ⟨hmap.1, by omega, hmap.2⟩

theorem RunInv.poll (h : RunInv q s tr i j k) (hphase : s.phase = .polling i)
    {resp : JobResponse} {rest : List JobResponse} (hjq : s.jq = resp :: rest) (r : Reading) :
    ∃ k', RunInv q (s.poll resp rest r) (tr ++ [.polled resp.status r]) i j k' := by
  have hin := h.phase
  rw [hphase] at hin
  cases hin with
  | polling hk =>
      obtain ⟨hstatus, hlt, hrest⟩ := h.front hjq
      have hrunning : ∀ err, s.phase ≠ .threw err := by
        intro err herr
        rw [hphase] at herr
        cases herr
      rw [hstatus, RunState.poll]
      by_cases hprogress : r.progress = 100
      · rw [if_neg (not_not.mpr hprogress)]
        by_cases hcode : r.code = 0
        · rw [if_neg (not_not.mpr hcode)]
          exact ⟨k + 1, h.popped hphase hrest hlt hprogress hcode⟩
        · rw [if_pos hcode]
          exact ⟨k, h.polled (.threw _) rfl (fun err herr => absurd herr (hrunning err))
            fun _ _ => ⟨_, rfl⟩⟩
      · rw [if_pos hprogress]
        by_cases htimer : s.timedOut resp.job r.clock = true
        · rw [if_pos htimer]
          exact ⟨k, h.polled (.threw _) rfl (fun err herr => absurd herr (hrunning err))
            fun _ _ => ⟨_, rfl⟩⟩
        · rw [if_neg htimer]
          exact ⟨k, h.polled h.phase rfl (fun _ herr => herr)
            fun hdone => absurd hdone hprogress⟩

/-- One step keeps the invariant. -/
theorem RunInv.step (h : RunInv q s tr i j k) (r : Reading) :
    ∃ i' j' k', RunInv q (runStep q r s).1 (tr ++ (runStep q r s).2) i' j' k' := by
  have hin := h.phase
  cases hphase : s.phase with
  | dispatching a b =>
      rw [hphase] at hin
      cases hin with
      | dispatching hle =>
          cases hjob : (q.getD i [])[j]? with
          | some job =>
              rw [runStep_dispatch hphase hjob]
              exact ⟨i, j + 1, 0, h.dispatch hphase hjob r.clock⟩
          | none =>
              have hsize : j = size q i :=
                Nat.le_antisymm hle (List.getElem?_eq_none_iff.mp hjob)
              rw [runStep_dispatched hphase hjob, List.append_nil]
              subst hsize
              refine ⟨i, size q i, 0, h.advance (.polling (Nat.zero_le _)) (fun _ => Iff.rfl)
                (fun _ => Iff.rfl) rfl ?_⟩
              intro err herr
              rw [hphase] at herr
              cases herr
  | polling a =>
      rw [hphase] at hin
      cases hin with
      | polling hle =>
          cases hjq : s.jq with
          | cons resp rest =>
              obtain ⟨k', hk'⟩ := h.poll hphase hjq r
              rw [runStep_poll hphase hjq]
              exact ⟨i, size q i, k', hk'⟩
          | nil =>
              have hk : k = size q i := by
                have hmap := h.jq
                rw [hjq, List.map_nil, eq_comm, List.map_eq_nil_iff,
                  List.range'_eq_nil_iff] at hmap
                omega
              rw [runStep_enter hphase hjq, List.append_nil]
              refine ⟨i + 1, 0, 0, h.advance (inPhase_enter q (i + 1)) (fun _ => before_next)
                (fun p => hk ▸ before_next) ?_ ?_⟩
              · rw [hk, Nat.sub_self]
                rfl
              · intro err herr
                rw [hphase] at herr
                cases herr
  | returned =>
      rw [runStep_returned hphase, List.append_nil]
      exact ⟨i, j, k, h⟩
  | threw err =>
      rw [runStep_threw hphase, List.append_nil]
      exact ⟨i, j, k, h⟩

theorem respectsBatches_step (h : RunInv q s tr i j k) (htr : RespectsBatches q tr)
    (r : Reading) : RespectsBatches q (tr ++ (runStep q r s).2) := by
  have hin := h.phase
  cases hphase : s.phase with
  | dispatching a b =>
      rw [hphase] at hin
      cases hin with
      | dispatching hle =>
          cases hjob : (q.getD i [])[j]? with
          | none => rwa [runStep_dispatched hphase hjob, List.append_nil]
          | some job =>
              rw [runStep_dispatch hphase hjob]
              refine respectsBatches_snoc htr fun p clock heq => ?_
              cases heq
              exact fun a ha b hb => h.done ha hb
  | polling a =>
      cases hjq : s.jq with
      | nil => rwa [runStep_enter hphase hjq, List.append_nil]
      | cons resp rest =>
          rw [runStep_poll hphase hjq]
          exact respectsBatches_snoc htr fun p clock heq => (nomatch heq)
  | returned => rwa [runStep_returned hphase, List.append_nil]
  | threw err => rwa [runStep_threw hphase, List.append_nil]

theorem exists_runInv (q : List (List JobPtr)) (rs : List Reading) :
    (∃ i j k, RunInv q (jobQueueRun q rs).1 (jobQueueRun q rs).2 i j k) ∧
      RespectsBatches q (jobQueueRun q rs).2 := by
  induction rs using List.reverseRecOn with
  | nil =>
      refine ⟨⟨0, 0, 0, runInv_start q⟩, ?_⟩
      intro pre p clock post heq
      have hlength := congrArg List.length heq
      simp [jobQueueRun] at hlength
  | append_singleton rs r ih =>
      obtain ⟨⟨i, j, k, h⟩, htr⟩ := ih
      rw [jobQueueRun_snoc]
      exact ⟨h.step r, respectsBatches_step h htr r⟩

/-- Every job of a batch is dispatched only when all jobs of the batches below have been
dispatched once and have succeeded. If the run returns, this holds of all jobs; if a job is
observed to have failed, the run throws, and no job of a later batch has been dispatched. -/
theorem jobQueueRun_respects (q : List (List JobPtr)) (rs : List Reading) :
    RespectsBatches q (jobQueueRun q rs).2 ∧
    ((jobQueueRun q rs).1.phase = .returned →
      ∀ i, ∀ j < size q i, Done (jobQueueRun q rs).2 (i, j)) ∧
    ∀ p r, RunEvent.polled p r ∈ (jobQueueRun q rs).2 → r.progress = 100 → r.code ≠ 0 →
      (∃ err, (jobQueueRun q rs).1.phase = .threw err) ∧
        ∀ p' clock, RunEvent.dispatched p' clock ∈ (jobQueueRun q rs).2 → p'.1 ≤ p.1 := by
  obtain ⟨⟨i, j, k, h⟩, htr⟩ := exists_runInv q rs
  refine ⟨htr, ?_, ?_⟩
  · intro hphase a b hb
    have hin := h.phase
    rw [hphase] at hin
    cases hin with
    | returned hle =>
        refine h.done ?_ hb
        by_contra hge
        have hnil : q.getD a [] = [] := List.getD_eq_default _ _ (by omega)
        rw [size, hnil] at hb
        exact Nat.not_lt_zero _ hb
  · intro p r hmem hprogress hcode
    obtain ⟨hthrew, hi⟩ := h.failed p r hmem hprogress hcode
    refine ⟨hthrew, fun p' clock hmem' => ?_⟩
    by_contra hlt
    have hnot : ¬ Before q i j p' := by
      rintro (⟨hbefore, -⟩ | ⟨hsame, -⟩)
      · omega
      · omega
    have hzero := h.never p' hnot
    rw [List.countP_eq_zero] at hzero
    exact hzero _ hmem' (decide_eq_true rfl)

end Batches

section Timers

variable {q : List (List JobPtr)} {s : RunState} {i j : ℕ}

/-- The timers belong to jobs of the queue, and the jobs of the responses are made later. -/
structure Apart (q : List (List JobPtr)) (s : RunState) : Prop where
  timer : ∀ a v, s.timer.lookup a = some v → a < (runStart q).next
  jq : ∀ resp ∈ s.jq, (runStart q).next ≤ resp.job.address
  next : (runStart q).next ≤ s.next

theorem address_lt {job : JobPtr} (h : (q.getD i [])[j]? = some job) :
    job.address < (runStart q).next := by
  have hi : i < q.length := by
    by_contra hge
    rw [List.getD_eq_default _ _ (by omega)] at h
    cases h
  rw [List.getD_eq_getElem _ _ hi] at h
  have hmem : job ∈ q.flatten :=
    List.mem_flatten.mpr ⟨_, List.getElem_mem hi, List.mem_of_getElem? h⟩
  have hle := (le_foldl_max (q.flatten.map JobPtr.address) 0).2 _ (List.mem_map_of_mem hmem)
  exact Nat.lt_succ_of_le hle

theorem Apart.dispatch (h : Apart q s) {job : JobPtr}
    (hjob : (q.getD i [])[j]? = some job) (clock : ℤ) :
    Apart q (s.dispatch job i j clock) where
  timer := by
    intro a v hv
    rw [RunState.dispatch] at hv
    by_cases htimeout : job.timeout = 0
    · rw [if_pos htimeout] at hv
      exact h.timer a v hv
    · rw [if_neg htimeout, Assoc.lookup_assign] at hv
      by_cases ha : a = job.address
      · rw [ha]
        exact address_lt hjob
      · rw [if_neg ha] at hv
        exact h.timer a v hv
  jq := by
    intro resp hresp
    rcases List.mem_append.mp hresp with hresp | hresp
    · exact h.jq resp hresp
    · rw [List.mem_singleton.mp hresp]
      exact h.next
  next := Nat.le_succ_of_le h.next

/-- The timer of a job is never found under the job of its response. -/
theorem Apart.timedOut (h : Apart q s) {resp : JobResponse} (hresp : resp ∈ s.jq)
    (clock : ℤ) : s.timedOut resp.job clock = false := by
  rw [RunState.timedOut]
  cases hlookup : s.timer.lookup resp.job.address with
  | none => rfl
  | some v =>
      have hlt := h.timer _ v hlookup
      have hle := h.jq resp hresp
      omega

theorem Apart.poll (h : Apart q s) {resp : JobResponse} {rest : List JobResponse}
    (hjq : s.jq = resp :: rest) (r : Reading) : Apart q (s.poll resp rest r) := by
  have htimer := h.timedOut (hjq ▸ List.mem_cons_self) r.clock
  rw [RunState.poll, htimer]
  split
  · exact h
  · split
    · exact ⟨h.timer, h.jq, h.next⟩
    · refine ⟨h.timer, fun resp' hresp' => ?_, h.next⟩
      exact h.jq resp' (hjq ▸ List.mem_cons_of_mem _ hresp')

theorem Apart.step (h : Apart q s) (r : Reading) : Apart q (runStep q r s).1 := by
  cases hphase : s.phase with
  | dispatching i j =>
      cases hjob : (q.getD i [])[j]? with
      | some job =>
          rw [runStep_dispatch hphase hjob]
          exact h.dispatch hjob r.clock
      | none =>
          rw [runStep_dispatched hphase hjob]
          exact ⟨h.timer, h.jq, h.next⟩
  | polling i =>
      cases hjq : s.jq with
      | cons resp rest =>
          rw [runStep_poll hphase hjq]
          exact h.poll hjq r
      | nil =>
          rw [runStep_enter hphase hjq]
          exact ⟨h.timer, h.jq, h.next⟩
  | returned =>
      rw [runStep_returned hphase]
      exact h
  | threw err =>
      rw [runStep_threw hphase]
      exact h

theorem apart_jobQueueRun (q : List (List JobPtr)) (rs : List Reading) :
    Apart q (jobQueueRun q rs).1 := by
  induction rs using List.reverseRecOn with
  | nil =>
      refine ⟨?_, ?_, Nat.le_refl _⟩
      · intro a v hv
        cases hv
      · intro resp hresp
        cases hresp
  | append_singleton rs r ih =>
      rw [jobQueueRun_snoc]
      exact ih.step r

/-- After the readings `rs` a job with a timeout is polled, it has not completed, and the clock
is past the timeout. -/
structure Overdue (q : List (List JobPtr)) (rs : List Reading) (r : Reading) (job : JobPtr) :
    Prop where
  polls : ∃ i resp rest, (jobQueueRun q rs).1.phase = .polling i ∧
    (jobQueueRun q rs).1.jq = resp :: rest ∧
    (q.getD resp.status.1 [])[resp.status.2]? = some job ∧
    ∃ clock, RunEvent.dispatched resp.status clock ∈ (jobQueueRun q rs).2 ∧
      job.timeout ≤ r.clock - clock
  timeout : 0 < job.timeout
  progress : r.progress ≠ 100

/-- A job that is overdue is polled on, whatever the queue and the readings are. -/
theorem jobQueueRun_overdue {rs : List Reading} {r : Reading} {job : JobPtr}
    (h : Overdue q rs r job) :
    (jobQueueRun q (rs ++ [r])).1 = (jobQueueRun q rs).1 ∧
      (jobQueueRun q (rs ++ [r])).1.phase ≠ .threw (timeoutError job.name) := by
  obtain ⟨i, resp, rest, hphase, hjq, -⟩ := h.polls
  have htimer := (apart_jobQueueRun q rs).timedOut (hjq ▸ List.mem_cons_self) r.clock
  have hsame : (jobQueueRun q (rs ++ [r])).1 = (jobQueueRun q rs).1 := by
    rw [jobQueueRun_snoc, runStep_poll hphase hjq, RunState.poll, if_pos h.progress, htimer]
    rfl
  refine ⟨hsame, ?_⟩
  rw [hsame, hphase]
  exact fun heq => (nomatch heq)

/-- One job with a timeout of a minute. -/
def minuteQueue : List (List JobPtr) :=
  [[⟨1, "do_slow_v1", 60⟩]]

/-- The job is dispatched at 0, and it has not completed at 3600. -/
def slowReadings : List Reading :=
  [⟨0, 0, 0⟩, ⟨0, 0, 0⟩]

theorem overdue_slow : Overdue minuteQueue slowReadings ⟨3600, 50, 0⟩ ⟨1, "do_slow_v1", 60⟩ where
  polls := ⟨0, ⟨⟨2, "do_slow_v1", 60⟩, (0, 0)⟩, [], rfl, rfl, rfl, 0, by decide, by decide⟩
  timeout := by decide
  progress := by decide

theorem jobQueueRun_slow :
    (jobQueueRun minuteQueue (slowReadings ++ [⟨3600, 50, 0⟩])).1.phase = .polling 0 := by
  have hsame := (jobQueueRun_overdue overdue_slow).1
  rw [hsame]
  rfl

/-- An hour after the dispatch of a job with a timeout of a minute the queue does not throw. -/
theorem not_timeout : Overdue minuteQueue slowReadings ⟨3600, 50, 0⟩ ⟨1, "do_slow_v1", 60⟩ ∧
    (jobQueueRun minuteQueue (slowReadings ++ [⟨3600, 50, 0⟩])).1.phase ≠
      .threw (timeoutError "do_slow_v1") := by
  refine ⟨overdue_slow, ?_⟩
  have hphase : (jobQueueRun minuteQueue (slowReadings ++ [⟨3600, 50, 0⟩])).1.phase =
      .polling 0 := rfl
  rw [hphase]
  exact fun heq => (nomatch heq)

end Timers

end Agents

end Gearbox
