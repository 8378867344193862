import Mathlib.Data.List.GetD
import Gearbox.Agents.Pipeline

/-!
# The plan of a pipeline

A `Plan` says which agents and which counter every level has and which job starts it.
`exists_plan` reads the plan off the jobs that `do_run_global_agents_v1` compiles from a
queue. The rest of the development is about plans: which tasks occur in a run of a plan
(`Plan.Belongs`), and which jobs the actions of a run fire (`Plan.Describes`).
-/

namespace Gearbox

namespace Agents

open Interleaving

/-- The handler for COMPLETED of the agents of a level with the counter `counter`. -/
def handlerOf (counter : Option ℕ) (next : Envelope) : Envelope :=
  match counter with
  | none => next
  | some c => .decrement c next

/-- The levels of a pipeline, their counters and their jobs. -/
structure Plan where
  size : ℕ
  agents : ℕ → List String
  counter : ℕ → Option ℕ
  job : ℕ → Envelope
  nodup : ∀ i, (agents i).Nodup
  unique : ∀ i j a, a ∈ agents i → a ∈ agents j → i = j
  nonempty : ∀ i, i < size → agents i ≠ []
  agents_of_le : ∀ i, size ≤ i → agents i = []
  counter_eq_none : ∀ i, i < size → (counter i = none ↔ (agents i).length = 1)
  counter_inj : ∀ i j c, counter i = some c → counter j = some c → i = j
  job_eq : ∀ i, i ≤ size → ∃ progress content jobs,
    job i = .runlevel progress content jobs ∧ jobs.map Envelope.agentName = agents i ∧
      ∀ job' ∈ jobs, ∃ a, job' = .agent a "" (handlerOf (counter i) (job (i + 1)))

/-- The handler for COMPLETED of the agents of level `i`. -/
def Plan.handler (P : Plan) (i : ℕ) : Envelope :=
  handlerOf (P.counter i) (P.job (i + 1))

theorem Plan.agents_inj (P : Plan) {i j : ℕ} (hi : i ≤ P.size) (hj : j ≤ P.size)
    (h : P.agents i = P.agents j) : i = j := by
  by_cases hi' : i < P.size
  · obtain ⟨a, ha⟩ := List.exists_mem_of_ne_nil _ (P.nonempty i hi')
    exact P.unique i j a ha (h ▸ ha)
  · by_cases hj' : j < P.size
    · obtain ⟨a, ha⟩ := List.exists_mem_of_ne_nil _ (P.nonempty j hj')
      exact P.unique i j a (h ▸ ha) ha
    · omega

section Compile

variable (size : ℕ) (content : String)

/-- The counters of the levels, made from the last level on. -/
def counters : List (List Agent) → Counters → List (Option ℕ) × Counters
  | [], cs => ([], cs)
  | inDegree :: rest, cs =>
      let (ids, cs) := counters rest cs
      if inDegree.length = 1 then
        (none :: ids, cs)
      else
        let (c, cs) := makeCounter inDegree.length cs
        (some c :: ids, cs)

/-- The job of the first of the given levels. -/
def levelJob : ℕ → List (List Agent) → List (Option ℕ) → Envelope
  | level, inDegree :: rest, c :: ids =>
      .runlevel (some (levelProgress size level)) content
        (inDegree.map fun a => .agent a "" (handlerOf c (levelJob (level + 1) rest ids)))
  | _, _, _ => .runlevel none "" []

theorem nextLevel_eq (level : ℕ) (q : List (List Agent)) (cs : Counters) :
    nextLevel size content level q cs
      = (levelJob size content level q (counters q cs).1, (counters q cs).2) := by
  induction q generalizing level with
  | nil => rfl
  | cons inDegree rest ih =>
      rw [nextLevel, ih, counters]
      match inDegree with
      | [] => rfl
      | [_] => rfl
      | _ :: _ :: _ => rfl

/-- What the counters of the levels are. -/
structure Counted (q : List (List Agent)) (cs : Counters) (ids : List (Option ℕ))
    (cs' : Counters) : Prop where
  length : ids.length = q.length
  next : cs.next ≤ cs'.next
  range : ∀ i c, ids.getD i none = some c → cs.next ≤ c ∧ c < cs'.next
  file : ∀ i c, ids.getD i none = some c → cs'.file c = some (q.getD i []).length
  single : ∀ i, i < q.length → (ids.getD i none = none ↔ (q.getD i []).length = 1)
  inj : ∀ i j c, ids.getD i none = some c → ids.getD j none = some c → i = j

section Counted

variable {q : List (List Agent)} {cs cs' : Counters} {ids : List (Option ℕ)}
  {inDegree : List Agent}

theorem Counted.nil (cs : Counters) : Counted [] cs [] cs where
  length := rfl
  next := Nat.le_refl _
  range i c h := by cases h
  file i c h := by cases h
  single i hi := absurd hi (Nat.not_lt_zero i)
  inj i j c h := by cases h

/-- A level with one agent has no counter. -/
theorem Counted.alone (h : Counted q cs ids cs') (hone : inDegree.length = 1) :
    Counted (inDegree :: q) cs (none :: ids) cs' where
  length := by simp [h.length]
  next := h.next
  range i c hc := by
    cases i with
    | zero => cases hc
    | succ i => exact h.range i c (by simpa using hc)
  file i c hc := by
    cases i with
    | zero => cases hc
    | succ i => simpa using h.file i c (by simpa using hc)
  single i hi := by
    cases i with
    | zero => simp [hone]
    | succ i => simpa using h.single i (by simpa using hi)
  inj i j c hi hj := by
    cases i with
    | zero => cases hi
    | succ i =>
        cases j with
        | zero => cases hj
        | succ j => exact congrArg _ (h.inj i j c (by simpa using hi) (by simpa using hj))

/-- A level with several agents has a counter that the later levels do not have. -/
theorem Counted.several (h : Counted q cs ids cs') (hone : inDegree.length ≠ 1) :
    Counted (inDegree :: q) cs (some cs'.next :: ids) (makeCounter inDegree.length cs').2 := by
  have hnext : (makeCounter inDegree.length cs').2.next = cs'.next + 1 := rfl
  have hother : ∀ i c, ids.getD i none = some c → c ≠ cs'.next :=
    fun i c hc => Nat.ne_of_lt (h.range i c hc).2
  refine ⟨by simp [h.length], by rw [hnext]; exact Nat.le_succ_of_le h.next, ?_, ?_, ?_, ?_⟩
  · intro i c hc
    rw [hnext]
    cases i with
    | zero =>
        cases hc
        exact ⟨h.next, Nat.lt_succ_self _⟩
    | succ i =>
        obtain ⟨hle, hlt⟩ := h.range i c (by simpa using hc)
        exact ⟨hle, Nat.lt_succ_of_lt hlt⟩
  · intro i c hc
    cases i with
    | zero =>
        cases hc
        exact Counters.write_file_self _ _ _
    | succ i =>
        have hc' : ids.getD i none = some c := by simpa using hc
        rw [List.getD_cons_succ, ← h.file i c hc']
        exact Counters.write_file_of_ne cs' inDegree.length (hother i c hc')
  · intro i hi
    cases i with
    | zero => simp [hone]
    | succ i => simpa using h.single i (by simpa using hi)
  · intro i j c hi hj
    cases i with
    | zero =>
        cases j with
        | zero => rfl
        | succ j =>
            cases hi
            exact absurd rfl (hother j _ (by simpa using hj))
    | succ i =>
        cases j with
        | zero =>
            cases hj
            exact absurd rfl (hother i _ (by simpa using hi))
        | succ j => exact congrArg _ (h.inj i j c (by simpa using hi) (by simpa using hj))

end Counted

theorem counted_counters (q : List (List Agent)) (cs : Counters) :
    Counted q cs (counters q cs).1 (counters q cs).2 := by
  induction q with
  | nil => exact .nil cs
  | cons inDegree rest ih =>
      by_cases hone : inDegree.length = 1
      · have heq : counters (inDegree :: rest) cs
            = (none :: (counters rest cs).1, (counters rest cs).2) := by
          simp [counters, hone]
        rw [heq]
        exact ih.alone hone
      · have heq : counters (inDegree :: rest) cs
            = (some (counters rest cs).2.next :: (counters rest cs).1,
              (makeCounter inDegree.length (counters rest cs).2).2) := by
          simp [counters, hone, makeCounter]
        rw [heq]
        exact ih.several hone

/-- The job of level `i` of a queue. -/
def jobAt (q : List (List Agent)) (ids : List (Option ℕ)) (i : ℕ) : Envelope :=
  levelJob size content i (q.drop i) (ids.drop i)

theorem jobAt_eq {q : List (List Agent)} {ids : List (Option ℕ)}
    (hlength : ids.length = q.length) (i : ℕ) :
    ∃ progress content' jobs, jobAt size content q ids i = .runlevel progress content' jobs ∧
      jobs.map Envelope.agentName = levelNames q i ∧
      ∀ job ∈ jobs, ∃ a, job = .agent a ""
        (handlerOf (ids.getD i none) (jobAt size content q ids (i + 1))) := by
  by_cases hi : i < q.length
  · have hids : i < ids.length := by omega
    rw [jobAt, List.drop_eq_getElem_cons hi, List.drop_eq_getElem_cons hids, levelJob]
    refine ⟨_, _, _, rfl, ?_, ?_⟩
    · rw [List.map_map, levelNames, List.getD_eq_getElem _ _ hi]
      rfl
    · intro job hjob
      obtain ⟨a, -, rfl⟩ := List.mem_map.mp hjob
      refine ⟨a, ?_⟩
      rw [List.getD_eq_getElem _ _ hids, jobAt]
  · have hdrop : q.drop i = [] := List.drop_eq_nil_of_le (by omega)
    rw [jobAt, hdrop, levelJob]
    · refine ⟨_, _, _, rfl, ?_, ?_⟩
      · rw [levelNames, List.getD_eq_default _ _ (by omega)]
        rfl
      · intro job hjob
        cases hjob
    · intro inDegree rest c ids' heq
      cases heq

/-- The plan that `do_run_global_agents_v1` compiles a queue into, and the counter files
that it makes. -/
theorem exists_plan {config : AgentConfig} {q : List (List Agent)} (hq : IsQueue config q)
    (content : String) (event : Option EventStatus) (cs : Counters) :
    ∃ (P : Plan) (cs' : Counters),
      doRunGlobalAgents q content event cs = ⟨cs', [.queued (P.job 0) event]⟩ ∧
      P.size = q.length ∧ P.agents = levelNames q ∧
      ∀ i c, P.counter i = some c → cs'.file c = some (P.agents i).length := by
  have hcounted := counted_counters q cs
  have hend : ∀ i, q.length ≤ i → levelNames q i = [] := by
    intro i hi
    rw [levelNames, List.getD_eq_default _ _ hi]
    rfl
  have hlen : ∀ i, (q.getD i []).length = (levelNames q i).length := by
    intro i
    rw [levelNames, List.length_map]
  let P : Plan :=
    { size := q.length
      agents := levelNames q
      counter := fun i => (counters q cs).1.getD i none
      job := jobAt q.length content q (counters q cs).1
      nodup := hq.nodup
      unique := hq.unique
      nonempty := hq.nonempty
      agents_of_le := hend
      counter_eq_none := fun i hi => by
        rw [hcounted.single i hi, hlen]
      counter_inj := hcounted.inj
      job_eq := fun i _ => jobAt_eq q.length content hcounted.length i }
  refine ⟨P, (counters q cs).2, ?_, rfl, rfl, ?_⟩
  · rw [doRunGlobalAgents, nextLevel_eq]
    rfl
  · intro i c hc
    rw [hcounted.file i c hc, hlen]

end Compile

section Handlers

/-- The event of a job that lets it go ahead: none, or that of a job that succeeded. -/
def passes : Option EventStatus → Bool
  | none => true
  | some s => s.progress = 100 ∧ s.code = 0

theorem doRunlevelGlobalAgents_none (content : String) (jobs : List Envelope) :
    ∃ resp, doRunlevelGlobalAgents none content jobs
      = .ok (resp, jobs.map (Envelope.setContent content)) := by
  cases jobs with
  | nil => exact ⟨.success, rfl⟩
  | cons job jobs => exact ⟨.continue, rfl⟩

/-- A level job goes ahead with its agents if its event passes, and throws otherwise. -/
theorem doRunlevelGlobalAgents_cases (event : Option EventStatus) (content : String)
    (jobs : List Envelope) :
    (passes event = true ∧ ∃ resp, doRunlevelGlobalAgents event content jobs
      = .ok (resp, jobs.map (Envelope.setContent content))) ∨
    (passes event = false ∧ ∃ err, doRunlevelGlobalAgents event content jobs
      = .error err) := by
  cases event with
  | none => exact .inl ⟨rfl, doRunlevelGlobalAgents_none content jobs⟩
  | some s =>
      by_cases hprogress : s.progress = 100
      · by_cases hcode : s.code = 0
        · obtain ⟨resp, hresp⟩ := doRunlevelGlobalAgents_none content jobs
          refine .inl ⟨by simp [passes, hprogress, hcode], resp, ?_⟩
          rw [← hresp]
          simp only [doRunlevelGlobalAgents, EventStatus.isSuccess, hprogress, hcode]
          rfl
        · refine .inr ⟨by simp [passes, hcode], throwFromCode s.code
            (s.messages.getLast?.getD "Unknown error from agent"), ?_⟩
          simp only [doRunlevelGlobalAgents, EventStatus.isSuccess, hprogress, hcode]
          rfl
      · refine .inr ⟨by simp [passes, hprogress],
          ⟨500, "is_success is invalid on in-complete status"⟩, ?_⟩
        simp only [doRunlevelGlobalAgents, EventStatus.isSuccess, ne_eq, hprogress,
          not_false_eq_true, if_true]
        rfl

/-- A decrement looks for its file if its event passes, and does not otherwise. -/
theorem decrementEntry_cases (event : Option EventStatus) (exist : Bool) :
    (passes event = true ∧ decrementEntry event exist = if exist then .opens else .missing) ∨
    (passes event = false ∧ (decrementEntry event exist = .crashed ∨
      ∃ s err, decrementEntry event exist = .threw s err ∧
        ∀ s', completedEvent s (.error err) = some s' → passes (some s') = false)) := by
  cases event with
  | none => exact .inl ⟨rfl, rfl⟩
  | some s =>
      by_cases hprogress : s.progress = 100
      · by_cases hcode : s.code = 0
        · refine .inl ⟨by simp [passes, hprogress, hcode], ?_⟩
          simp [decrementEntry, EventStatus.isSuccess, hprogress, hcode]
        · refine .inr ⟨by simp [passes, hcode], ?_⟩
          cases hlast : s.messages.getLast? with
          | none =>
              left
              simp [decrementEntry, EventStatus.isSuccess, hprogress, hcode, hlast]
          | some message =>
              right
              refine ⟨s, throwFromCode s.code message, ?_, ?_⟩
              · simp [decrementEntry, EventStatus.isSuccess, hprogress, hcode, hlast]
              · intro s' hs'
                have heq : s' = s := by
                  simp only [completedEvent, hprogress, ne_eq, not_true_eq_false,
                    if_false] at hs'
                  split at hs'
                  · exact (Option.some.inj hs').symm
                  · cases hs'
                simp [heq, passes, hcode]
      · refine .inr ⟨by simp [passes, hprogress], .inr ⟨.fresh,
          ⟨500, "is_success is invalid on in-complete status"⟩, ?_, ?_⟩⟩
        · simp only [decrementEntry, EventStatus.isSuccess, ne_eq, hprogress,
            not_false_eq_true, if_true]
        · intro s' hs'
          cases hs'
          rfl

theorem doRunlevelGlobalAgents_ok {event : Option EventStatus} {content : String}
    {jobs agents : List Envelope} {resp : Response}
    (h : doRunlevelGlobalAgents event content jobs = .ok (resp, agents)) :
    passes event = true ∧ agents = jobs.map (Envelope.setContent content) := by
  rcases doRunlevelGlobalAgents_cases event content jobs with
    ⟨hpass, resp', hok⟩ | ⟨-, err, herr⟩
  · rw [hok] at h
    cases h
    exact ⟨hpass, rfl⟩
  · rw [herr] at h
    cases h

theorem doRunlevelGlobalAgents_error {event : Option EventStatus} {content : String}
    {jobs : List Envelope} {err : Error}
    (h : doRunlevelGlobalAgents event content jobs = .error err) :
    passes event = false := by
  rcases doRunlevelGlobalAgents_cases event content jobs with
    ⟨-, resp', hok⟩ | ⟨hpass, -⟩
  · rw [hok] at h
    cases h
  · exact hpass

theorem decrementEntry_opens {event : Option EventStatus} {exist : Bool}
    (h : decrementEntry event exist = .opens) : passes event = true ∧ exist = true := by
  rcases decrementEntry_cases event exist with
    ⟨hpass, hlocate⟩ | ⟨-, hcrash | ⟨s, err, hthrew, -⟩⟩
  · rw [h] at hlocate
    cases exist with
    | true => exact ⟨hpass, rfl⟩
    | false => cases hlocate
  · rw [hcrash] at h
    cases h
  · rw [hthrew] at h
    cases h

theorem decrementEntry_missing {event : Option EventStatus} {exist : Bool}
    (h : decrementEntry event exist = .missing) : passes event = true ∧ exist = false := by
  rcases decrementEntry_cases event exist with
    ⟨hpass, hlocate⟩ | ⟨-, hcrash | ⟨s, err, hthrew, -⟩⟩
  · rw [h] at hlocate
    cases exist with
    | true => cases hlocate
    | false => exact ⟨hpass, rfl⟩
  · rw [hcrash] at h
    cases h
  · rw [hthrew] at h
    cases h

theorem decrementEntry_crashed {event : Option EventStatus} {exist : Bool}
    (h : decrementEntry event exist = .crashed) : passes event = false := by
  rcases decrementEntry_cases event exist with ⟨-, hlocate⟩ | ⟨hpass, -⟩
  · rw [h] at hlocate
    cases exist <;> cases hlocate
  · exact hpass

theorem decrementEntry_threw {event : Option EventStatus} {exist : Bool} {s : EventStatus}
    {err : Error} (h : decrementEntry event exist = .threw s err) :
    passes event = false ∧
      ∀ s', completedEvent s (.error err) = some s' → passes (some s') = false := by
  rcases decrementEntry_cases event exist with
    ⟨-, hlocate⟩ | ⟨hpass, hcrash | ⟨s', err', hthrew, hfails⟩⟩
  · rw [h] at hlocate
    cases exist <;> cases hlocate
  · rw [hcrash] at h
    cases h
  · rw [hthrew] at h
    cases h
    exact ⟨hpass, hfails⟩

theorem agentName_setContent (content : String) (jobs : List Envelope) :
    (jobs.map (Envelope.setContent content)).map Envelope.agentName
      = jobs.map Envelope.agentName := by
  rw [List.map_map]
  refine List.map_congr_left fun job _ => ?_
  cases job <;> rfl

end Handlers

section Belongs

variable (P : Plan)

/-- The tasks of a run of the plan. -/
def Plan.Belongs : Task → Prop
  | .queued (.runlevel progress content jobs) _ =>
      ∃ i, i ≤ P.size ∧ P.job i = .runlevel progress content jobs
  | .queued (.agent a _ completed) _ =>
      ∃ i, i < P.size ∧ a.name ∈ P.agents i ∧ completed = P.handler i
  | .queued (.decrement c completed) _ =>
      ∃ i, i < P.size ∧ P.counter i = some c ∧ completed = P.job (i + 1)
  | .afterwards jobs =>
      ∃ i, i ≤ P.size ∧ ∀ job ∈ jobs, ∃ a content,
        job = .agent a content (P.handler i) ∧ a.name ∈ P.agents i
  | .locking c completed event =>
      ∃ i, i < P.size ∧ P.counter i = some c ∧ completed = P.job (i + 1) ∧
        passes event = true
  | .removing c _ completed =>
      ∃ i, i < P.size ∧ P.counter i = some c ∧ completed = P.job (i + 1)

variable {P}

theorem Plan.lt_size_of_mem {i : ℕ} {a : String} (ha : a ∈ P.agents i) : i < P.size := by
  by_contra hi
  rw [P.agents_of_le i (Nat.le_of_not_lt hi)] at ha
  cases ha

theorem belongs_job {i : ℕ} (hi : i ≤ P.size) (event : Option EventStatus) :
    P.Belongs (.queued (P.job i) event) := by
  obtain ⟨progress, content, jobs, hjob, -, -⟩ := P.job_eq i hi
  rw [hjob]
  exact ⟨i, hi, hjob⟩

theorem belongs_handler {i : ℕ} (hi : i < P.size) (event : Option EventStatus) :
    P.Belongs (.queued (P.handler i) event) := by
  rw [Plan.handler]
  cases hc : P.counter i with
  | none => exact belongs_job hi event
  | some c => exact ⟨i, hi, hc, rfl⟩

theorem forall_fire {Q : Task → Prop} {completed : Envelope}
    (h : ∀ event, Q (.queued completed event)) (event : Option EventStatus) :
    ∀ u ∈ fire completed event, Q u := by
  intro u hu
  cases event with
  | none => cases hu
  | some s =>
      rw [fire, Option.map_some, Option.toList_some, List.mem_singleton] at hu
      rw [hu]
      exact h (some s)

/-- The agents of a level job are those of the plan. -/
theorem Plan.agents_of_job {i : ℕ} (hi : i ≤ P.size) {progress : Option ℕ}
    {content : String} {jobs : List Envelope}
    (hjob : P.job i = .runlevel progress content jobs) :
    jobs.map Envelope.agentName = P.agents i ∧
      ∀ job ∈ jobs, ∃ a, job = .agent a "" (P.handler i) ∧ a.name ∈ P.agents i := by
  obtain ⟨progress', content', jobs', hjob', hnames, hjobs⟩ := P.job_eq i hi
  rw [hjob] at hjob'
  cases hjob'
  refine ⟨hnames, ?_⟩
  intro job hmem
  obtain ⟨a, ha⟩ := hjobs job hmem
  refine ⟨a, ha, ?_⟩
  rw [← hnames]
  exact List.mem_map.mpr ⟨job, hmem, by rw [ha]; rfl⟩

/-- What the tasks of the plan give rise to are tasks of the plan. -/
theorem Exec.belongs {t : Task} {cs cs' : Counters} {l : Label} {new : List Task}
    (ht : P.Belongs t) (h : Exec t cs l new cs') : ∀ u ∈ new, P.Belongs u := by
  cases h with
  | aborted => simp
  | started progress content jobs agents event _ resp hrun =>
      obtain ⟨i, hi, hjob⟩ := ht
      obtain ⟨-, hjobs⟩ := P.agents_of_job hi hjob
      obtain ⟨-, hagents⟩ := doRunlevelGlobalAgents_ok hrun
      intro u hu
      rw [List.mem_singleton] at hu
      rw [hu, hagents]
      refine ⟨i, hi, fun job hmem => ?_⟩
      obtain ⟨job', hmem', rfl⟩ := List.mem_map.mp hmem
      obtain ⟨a, rfl, ha⟩ := hjobs job' hmem'
      exact ⟨a, content, rfl, ha⟩
  | dispatched job jobs =>
      obtain ⟨i, hi, hjobs⟩ := ht
      obtain ⟨a, content, rfl, ha⟩ := hjobs job (by simp)
      intro u hu
      rcases List.mem_cons.mp hu with rfl | hu
      · exact ⟨i, P.lt_size_of_mem ha, ha, rfl⟩
      · rw [List.mem_singleton] at hu
        rw [hu]
        exact ⟨i, hi, fun job hmem => hjobs job (by simp [hmem])⟩
  | refused job jobs =>
      obtain ⟨i, hi, hjobs⟩ := ht
      intro u hu
      rw [List.mem_singleton] at hu
      rw [hu]
      exact ⟨i, hi, fun job hmem => hjobs job (by simp [hmem])⟩
  | cleared => simp
  | completed a content completed =>
      obtain ⟨i, hi, -, rfl⟩ := ht
      exact forall_fire (belongs_handler hi) _
  | failed c completed =>
      obtain ⟨i, hi, -, rfl⟩ := ht
      exact forall_fire (belongs_job hi) _
  | crashed => simp
  | missing c completed =>
      obtain ⟨i, hi, -, rfl⟩ := ht
      exact forall_fire (belongs_job hi) _
  | opened c completed event _ hentry =>
      obtain ⟨i, hi, hc, rfl⟩ := ht
      intro u hu
      rw [List.mem_singleton] at hu
      rw [hu]
      exact ⟨i, hi, hc, rfl, (decrementEntry_opens hentry).1⟩
  | decremented c completed event _ value =>
      obtain ⟨i, hi, hc, rfl, -⟩ := ht
      intro u hu
      split at hu
      · cases hu
      · rw [List.mem_singleton] at hu
        rw [hu]
        exact ⟨i, hi, hc, rfl⟩
  | retried c completed =>
      obtain ⟨i, hi, hc, rfl, -⟩ := ht
      intro u hu
      rw [List.mem_singleton] at hu
      rw [hu]
      exact ⟨i, hi, hc, rfl⟩
  | removed c value completed =>
      obtain ⟨i, hi, -, rfl⟩ := ht
      exact forall_fire (belongs_job hi) _

end Belongs

end Agents

end Gearbox
