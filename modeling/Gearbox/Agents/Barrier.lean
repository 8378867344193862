import Gearbox.Agents.Accounts

/-!
# The barrier between the levels

The counter of a level is used up by the last of its agents that succeeds, and by none if
one of them fails (`CounterInv`). So every level is started at most once, and only when
all agents below it have succeeded (`succeeded_below`). `Barrier` states what this means
for the order of the labels of a run, and `pipeline_barrier` proves it for every
configuration that `job_queue` accepts, together with the fact that every run can be
continued until nothing is left to do, after a bounded number of steps.
-/

namespace Gearbox

namespace Agents

open Interleaving

section Counters

/-- The counter `c` of a level of `n` agents: it is still in use, or used up, or removed. -/
structure CounterInv (n c : ℕ) (tr : List Label) (p : Pool Counters Task) : Prop where
  misses : tr.countP (Label.misses c) = 0
  removing : ∀ value completed, Task.removing c value completed ∈ p.tasks → value = 0
  removed : ∀ l ∈ tr, ∀ value, l.action = .removed c value → value = 0
  file :
    (tr.countP (Label.decrements c) < n ∧ tr.countP (Label.exhausts c) = 0 ∧
      tr.countP (Label.removes c) = 0 ∧
      p.store.file c = some (n - tr.countP (Label.decrements c) : ℤ)) ∨
    (tr.countP (Label.decrements c) = n ∧ tr.countP (Label.exhausts c) = 1 ∧
      tr.countP (Label.removes c) = 0) ∨
    (tr.countP (Label.decrements c) = n ∧ tr.countP (Label.exhausts c) = 1 ∧
      tr.countP (Label.removes c) = 1)

variable {n c : ℕ} {tr : List Label} {p p' : Pool Counters Task} {t : Task} {l : Label}
  {new : List Task}

/-- A counter that some agents have still to decrement is in use. -/
theorem CounterInv.in_use (h : CounterInv n c tr p)
    (hlt : tr.countP (Label.decrements c) < n) :
    tr.countP (Label.exhausts c) = 0 ∧ tr.countP (Label.removes c) = 0 ∧
      p.store.file c = some (n - tr.countP (Label.decrements c) : ℤ) := by
  rcases h.file with ⟨-, hfile⟩ | ⟨hdecs, -⟩ | ⟨hdecs, -⟩
  · exact hfile
  · omega
  · omega

/-- A step that has nothing to do with the counter. -/
theorem CounterInv.of_other (h : CounterInv n c tr p)
    (hdecrements : l.decrements c = false) (hexhausts : l.exhausts c = false)
    (hmisses : l.misses c = false) (hremoves : l.removes c = false)
    (hfile : p'.store.file c = p.store.file c)
    (htasks : ∀ value completed, Task.removing c value completed ∈ p'.tasks →
      Task.removing c value completed ∈ p.tasks) :
    CounterInv n c (tr ++ [l]) p' := by
  refine ⟨?_, ?_, ?_, ?_⟩
  · rw [List.countP_append, List.countP_singleton, hmisses, h.misses]
    rfl
  · intro value completed hmem
    exact h.removing value completed (htasks value completed hmem)
  · intro l' hl' value haction
    rcases List.mem_append.mp hl' with hl' | hl'
    · exact h.removed l' hl' value haction
    · rw [List.mem_singleton.mp hl'] at haction
      rw [removes_iff.mpr ⟨value, haction⟩] at hremoves
      cases hremoves
  · simp only [List.countP_append, List.countP_singleton, hdecrements, hexhausts, hremoves,
      hfile]
    exact h.file

/-- A decrement of a counter that is in use. -/
theorem CounterInv.decrement (h : CounterInv n c tr p) {value : ℤ}
    (hlt : tr.countP (Label.decrements c) < n) (hvalue : p.store.file c = some value)
    (hfile : p'.store.file c = some (value - 1))
    (htasks : ∀ value' completed, Task.removing c value' completed ∈ p'.tasks →
      Task.removing c value' completed ∈ p.tasks ∨ value' = value - 1 ∧ value - 1 ≤ 0) :
    CounterInv n c (tr ++ [(Action.decremented c (value - 1)).silent]) p' := by
  obtain ⟨hexh, hrem, hold⟩ := h.in_use hlt
  have hval : value = n - tr.countP (Label.decrements c) :=
    Option.some.inj (hvalue.symm.trans hold)
  have hdecs : (tr ++ [(Action.decremented c (value - 1)).silent]).countP
      (Label.decrements c) = tr.countP (Label.decrements c) + 1 := by
    simp [List.countP_append, Label.decrements, Action.silent]
  have hrem' : (tr ++ [(Action.decremented c (value - 1)).silent]).countP
      (Label.removes c) = 0 := by
    simp [List.countP_append, Label.removes, Action.silent, hrem]
  refine ⟨?_, ?_, ?_, ?_⟩
  · simp [List.countP_append, h.misses, Label.misses, Action.silent]
  · intro value' completed hmem
    rcases htasks value' completed hmem with hmem | ⟨heq, hle⟩
    · exact h.removing value' completed hmem
    · omega
  · intro l' hl' value' haction
    rcases List.mem_append.mp hl' with hl' | hl'
    · exact h.removed l' hl' value' haction
    · rw [List.mem_singleton.mp hl'] at haction
      cases haction
  · rw [hdecs, hrem', hfile]
    by_cases hpos : value - 1 ≤ 0
    · right
      left
      refine ⟨by omega, ?_, rfl⟩
      simp only [List.countP_append, hexh, List.countP_singleton, Label.exhausts,
        Action.silent, hpos, and_self, decide_true, if_true]
    · left
      refine ⟨by omega, ?_, rfl, ?_⟩
      · simp only [List.countP_append, hexh, List.countP_singleton, Label.exhausts,
          Action.silent, hpos, and_false, decide_false, Bool.false_eq_true, if_false]
      · congr 1
        omega

/-- The removal of a counter that is used up. -/
theorem CounterInv.remove (h : CounterInv n c tr p) {value : ℤ} {completed : Envelope}
    (hmem : Task.removing c value completed ∈ p.tasks)
    (hrem : tr.countP (Label.removes c) < tr.countP (Label.exhausts c))
    (hl : l.action = .removed c value)
    (htasks : ∀ value' completed', Task.removing c value' completed' ∈ p'.tasks →
      Task.removing c value' completed' ∈ p.tasks) :
    CounterInv n c (tr ++ [l]) p' := by
  obtain ⟨hdecs, hexh, hrem⟩ : tr.countP (Label.decrements c) = n ∧
      tr.countP (Label.exhausts c) = 1 ∧ tr.countP (Label.removes c) = 0 := by
    rcases h.file with ⟨-, hexh, -, -⟩ | hfile | ⟨-, hexh, hrem'⟩
    · omega
    · exact hfile
    · omega
  refine ⟨?_, ?_, ?_, .inr (.inr ⟨?_, ?_, ?_⟩)⟩
  · simp [List.countP_append, h.misses, Label.misses, hl]
  · intro value' completed' hmem'
    exact h.removing value' completed' (htasks value' completed' hmem')
  · intro l' hl' value' haction
    rcases List.mem_append.mp hl' with hl' | hl'
    · exact h.removed l' hl' value' haction
    · rw [List.mem_singleton.mp hl', hl] at haction
      cases haction
      exact h.removing value completed hmem
  · simp [List.countP_append, hdecs, Label.decrements, hl]
  · simp [List.countP_append, hexh, Label.exhausts, hl]
  · simp [List.countP_append, hrem, Label.removes, hl]

theorem removing_notMem_fire {value : ℤ} {completed completed' : Envelope}
    {event : Option EventStatus} :
    Task.removing c value completed ∉ fire completed' event := by
  intro hmem
  cases event with
  | none => cases hmem
  | some s => simp [fire] at hmem

/-- One step, in a pool where the decrements that are still to come fit into the counter
and its removals are accounted for. -/
theorem CounterInv.step (h : CounterInv n c tr p) {cs' : Counters}
    (hexec : Exec t p.store l new cs') (ht : t ∈ p.tasks)
    (hpending : Task.decrementing c t + tr.countP (Label.decrements c) ≤ n)
    (hexhausted : Task.exhausted c t + tr.countP (Label.removes c)
      ≤ tr.countP (Label.exhausts c))
    (hstore : p'.store = cs') (htasks : ∀ u ∈ p'.tasks, u ∈ p.tasks ∨ u ∈ new) :
    CounterInv n c (tr ++ [l]) p' := by
  cases hexec with
  | aborted | started | dispatched | refused | cleared | crashed | opened | retried =>
      refine h.of_other rfl rfl (by simp [Label.misses, Action.silent]) rfl
        (by rw [hstore]) ?_
      intro value completed hmem
      simpa using htasks _ hmem
  | completed | failed =>
      refine h.of_other rfl rfl (by simp [Label.misses, Action.firing]) rfl
        (by rw [hstore]) ?_
      intro value completed hmem
      exact (htasks _ hmem).resolve_right removing_notMem_fire
  | missing c' completed event _ hentry =>
      obtain ⟨hpass, hnone⟩ := decrementEntry_missing hentry
      by_cases hc : c' = c
      · simp only [Task.decrementing, Envelope.isDecrement, hpass, hc, decide_true,
          Bool.and_self, if_true] at hpending
        obtain ⟨-, -, hfile⟩ := h.in_use (by omega)
        rw [hc, hfile] at hnone
        cases hnone
      · refine h.of_other rfl rfl (by simp [Label.misses, Action.firing, hc]) rfl
          (by rw [hstore]) ?_
        intro value completed hmem
        exact (htasks _ hmem).resolve_right removing_notMem_fire
  | decremented c' completed event _ value hvalue =>
      have hnew : ∀ {value' completed'}, Task.removing c value' completed'
          ∈ (if value - 1 > 0 then [] else [Task.removing c' (value - 1) completed]) →
          c' = c ∧ value' = value - 1 ∧ value - 1 ≤ 0 := by
        intro value' completed' hmem
        split at hmem
        · cases hmem
        · rw [List.mem_singleton] at hmem
          cases hmem
          exact ⟨rfl, rfl, by omega⟩
      by_cases hc : c' = c
      · subst hc
        have hlt : tr.countP (Label.decrements c') < n := by
          simp only [Task.decrementing, if_true] at hpending
          omega
        refine h.decrement hlt hvalue ?_ ?_
        · rw [hstore]
          exact Counters.write_file_self _ _ _
        · intro value' completed' hmem
          exact (htasks _ hmem).imp_right fun hmem => (hnew hmem).2
      · refine h.of_other ?_ ?_ ?_ rfl ?_ ?_
        · simp [Label.decrements, Action.silent, hc]
        · simp [Label.exhausts, Action.silent, hc]
        · simp [Label.misses, Action.silent]
        · rw [hstore]
          exact Counters.write_file_of_ne _ _ fun heq => hc heq.symm
        · intro value' completed' hmem
          exact (htasks _ hmem).resolve_right fun hmem => hc (hnew hmem).1
  | removed c' value completed =>
      have htasks' : ∀ value' completed', Task.removing c value' completed' ∈ p'.tasks →
          Task.removing c value' completed' ∈ p.tasks :=
        fun _ _ hmem => (htasks _ hmem).resolve_right removing_notMem_fire
      by_cases hc : c' = c
      · subst hc
        refine h.remove ht ?_ rfl htasks'
        simp only [Task.exhausted, if_true] at hexhausted
        omega
      · refine h.of_other rfl rfl ?_ ?_ ?_ htasks'
        · simp [Label.misses, Action.firing]
        · simp [Label.removes, Action.firing, hc]
        · rw [hstore]
          exact Counters.remove_file_of_ne _ fun heq => hc heq.symm

end Counters

section Levels

theorem sum_map_le_length {α : Type} {f : α → ℕ} {as : List α} (h : ∀ a ∈ as, f a ≤ 1) :
    (as.map f).sum ≤ as.length := by
  induction as with
  | nil => exact Nat.le_refl 0
  | cons a as ih =>
      have ha := h a (by simp)
      have has := ih fun b hb => h b (by simp [hb])
      simp only [List.map_cons, List.sum_cons, List.length_cons]
      omega

/-- A sum of zeros and ones that is as large as it can be. -/
theorem eq_one_of_length_le_sum {α : Type} {f : α → ℕ} {as : List α}
    (h : ∀ a ∈ as, f a ≤ 1) (hsum : as.length ≤ (as.map f).sum) :
    ∀ a ∈ as, f a = 1 := by
  induction as with
  | nil => simp
  | cons a as ih =>
      have ha := h a (by simp)
      have has : ∀ b ∈ as, f b ≤ 1 := fun b hb => h b (by simp [hb])
      have hle := sum_map_le_length has
      simp only [List.map_cons, List.sum_cons, List.length_cons] at hsum
      intro b hb
      rcases List.mem_cons.mp hb with rfl | hb
      · omega
      · exact ih has (by omega) b hb

variable {P : Plan} {event : Option EventStatus} {cs : Counters} {tr : List Label}
  {p : Pool Counters Task}

theorem countP_succeeds_le_completes (a : String) (tr : List Label) :
    tr.countP (Label.succeeds a) ≤ tr.countP (Label.completes a) := by
  refine List.countP_mono_left fun l _ h => ?_
  obtain ⟨s, haction, -⟩ := succeeds_iff.mp h
  simp [Label.completes, haction]

theorem Balanced.succeeds_le (h : Balanced P tr p) {i : ℕ} {a : String}
    (ha : a ∈ P.agents i) :
    tr.countP (Label.succeeds a) ≤ tr.countP (Label.starts (P.agents i)) := by
  have hdispatched := h.dispatched i a ha
  have hcompleted := h.completed a
  have hsucc := countP_succeeds_le_completes a tr
  omega

/-- In a level without a counter there is one agent. -/
theorem Plan.exists_eq_singleton {i : ℕ} (hi : i < P.size) (hc : P.counter i = none) :
    ∃ a, P.agents i = [a] :=
  List.length_eq_one_iff.mp ((P.counter_eq_none i hi).mp hc)

/-- The accounts balance and the counters are right. -/
structure InOrder (P : Plan) (tr : List Label) (p : Pool Counters Task) : Prop where
  balanced : Balanced P tr p
  counters : ∀ i c, i < P.size → P.counter i = some c →
    CounterInv (P.agents i).length c tr p

theorem CounterInv.removes_add_misses_le {n c : ℕ} (h : CounterInv n c tr p) :
    tr.countP (Label.removes c) + tr.countP (Label.misses c) ≤ 1 := by
  have hmisses := h.misses
  rcases h.file with ⟨-, -, hrem, -⟩ | ⟨-, -, hrem⟩ | ⟨-, -, hrem⟩ <;> omega

/-- If a level is started at most once, then so is the next one. -/
theorem InOrder.triggers_le_one (h : InOrder P tr p) {i : ℕ} (hi : i < P.size)
    (hstarts : tr.countP (Label.starts (P.agents i)) ≤ 1) :
    tr.countP (Label.triggers (P.agents (i + 1))) ≤ 1 := by
  cases hc : P.counter i with
  | none =>
      obtain ⟨a, ha⟩ := P.exists_eq_singleton hi hc
      have hmem : a ∈ P.agents i := by simp [ha]
      have hsingle := h.balanced.triggeredBySuccess i a hi ha
      have hsucc := h.balanced.succeeds_le hmem
      omega
  | some c =>
      have hmany := h.balanced.triggeredByCounter i c hi hc
      have hone := (h.counters i c hi hc).removes_add_misses_le
      omega

/-- Every level is started at most once. -/
theorem InOrder.starts_le_one (h : InOrder P tr p) (i : ℕ) (hi : i ≤ P.size) :
    tr.countP (Label.starts (P.agents i)) ≤ 1 := by
  induction i with
  | zero => exact h.balanced.first
  | succ i ih =>
      have hstarts := ih (by omega)
      have htriggers := h.triggers_le_one hi hstarts
      have hstarted := h.balanced.started i hi
      omega

theorem InOrder.succeeds_le_one (h : InOrder P tr p) {i : ℕ} {a : String}
    (ha : a ∈ P.agents i) : tr.countP (Label.succeeds a) ≤ 1 := by
  have hi : i < P.size := P.lt_size_of_mem ha
  have hstarts := h.starts_le_one i (Nat.le_of_lt hi)
  have hsucc := h.balanced.succeeds_le ha
  omega

/-- The decrements that are done or on their way are no more than the agents. -/
theorem InOrder.pending_le (h : InOrder P tr p) {i c : ℕ} (hc : P.counter i = some c) :
    p.total (Task.decrementing c) + tr.countP (Label.decrements c)
      ≤ (P.agents i).length := by
  have hsum := sum_map_le_length fun a ha => h.succeeds_le_one (i := i) (a := a) ha
  have hreported := h.balanced.reported i c hc
  omega

theorem inOrder_start
    (hcs : ∀ i c, P.counter i = some c → cs.file c = some ((P.agents i).length : ℤ)) :
    InOrder P [] (P.start event cs) := by
  refine ⟨balanced_of_run .nil, fun i c hi hc => ⟨rfl, ?_, ?_, .inl ⟨?_, rfl, rfl, ?_⟩⟩⟩
  · intro value completed hmem
    simp [Plan.start] at hmem
  · intro l hl
    cases hl
  · exact List.length_pos_iff.mpr (P.nonempty i hi)
  · simpa [Plan.start] using hcs i c hc

/-- Every run is in order. -/
theorem inOrder_of_run
    (hcs : ∀ i c, P.counter i = some c → cs.file c = some ((P.agents i).length : ℤ))
    (h : Pool.Run Exec (P.start event cs) tr p) : InOrder P tr p := by
  induction h with
  | nil => exact inOrder_start hcs
  | @snoc tr p p' l hrun hs ih =>
      refine ⟨balanced_of_run (.snoc hrun hs), fun i c hi hc => ?_⟩
      have hpending := ih.pending_le hc
      have hexhausted := ih.balanced.exhausted c
      have hinv := ih.counters i c hi hc
      cases hs with
      | exec pre post t new σ σ' l hexec =>
          have hmem : t ∈ (Pool.mk σ (pre ++ t :: post)).tasks := by simp
          have hdec := Pool.le_total (Task.decrementing c) hmem
          have hexh := Pool.le_total (Task.exhausted c) hmem
          refine hinv.step hexec hmem (by omega) (by omega) rfl ?_
          intro u hu
          simp only [List.mem_append] at hu
          rcases hu with (hu | hu) | hu
          · exact .inl (by simp [hu])
          · exact .inr hu
          · exact .inl (by simp [hu])

/-- A level that is triggered finds all agents of the level below successful. -/
theorem InOrder.succeeded_of_triggered (h : InOrder P tr p) {i : ℕ} (hi : i < P.size)
    (htriggered : 0 < tr.countP (Label.triggers (P.agents (i + 1)))) :
    ∀ a ∈ P.agents i, tr.countP (Label.succeeds a) = 1 := by
  have hle : ∀ a ∈ P.agents i, tr.countP (Label.succeeds a) ≤ 1 :=
    fun a ha => h.succeeds_le_one ha
  cases hc : P.counter i with
  | none =>
      obtain ⟨a, ha⟩ := P.exists_eq_singleton hi hc
      have hsingle := h.balanced.triggeredBySuccess i a hi ha
      intro b hb
      have hb' := hle b hb
      rw [ha, List.mem_singleton] at hb
      rw [hb] at hb' ⊢
      omega
  | some c =>
      have hinv := h.counters i c hi hc
      have hmany := h.balanced.triggeredByCounter i c hi hc
      have hreported := h.balanced.reported i c hc
      have hmisses := hinv.misses
      refine eq_one_of_length_le_sum hle ?_
      rcases hinv.file with ⟨-, -, hrem, -⟩ | ⟨hdecs, -, -⟩ | ⟨hdecs, -, -⟩ <;> omega

/-- A level that has started finds all agents of all levels below successful. -/
theorem InOrder.succeeded_below (h : InOrder P tr p) {i : ℕ} (hi : i ≤ P.size)
    (hstarted : 0 < tr.countP (Label.starts (P.agents i))) :
    ∀ j a, j < i → a ∈ P.agents j → tr.countP (Label.succeeds a) = 1 := by
  induction i with
  | zero =>
      intro j a hj
      exact absurd hj (Nat.not_lt_zero j)
  | succ i ih =>
      have htriggers := h.balanced.started i hi
      have hlevel := h.succeeded_of_triggered hi (by omega)
      obtain ⟨b, hb⟩ := List.exists_mem_of_ne_nil _ (P.nonempty i hi)
      have hsucc := h.balanced.succeeds_le hb
      rw [hlevel b hb] at hsucc
      intro j a hj ha
      rcases Nat.lt_or_eq_of_le (Nat.le_of_lt_succ hj) with hlt | heq
      · exact ih (by omega) hsucc j a hlt ha
      · rw [heq] at ha
        exact hlevel a ha

/-- When nothing is left to do, a level whose agents have all succeeded has triggered and
started the next one. -/
theorem InOrder.started_of_succeeded (h : InOrder P tr p) (hp : p.tasks = []) {i : ℕ}
    (hi : i < P.size)
    (hsucc : ∀ a ∈ P.agents i, 0 < tr.countP (Label.succeeds a)) :
    tr.countP (Label.triggers (P.agents (i + 1))) = 1 ∧
      tr.countP (Label.starts (P.agents (i + 1))) = 1 := by
  have hempty : ∀ w : Task → ℕ, p.total w = 0 := by
    intro w
    rw [Pool.total, hp]
    rfl
  have hone : ∀ a ∈ P.agents i, tr.countP (Label.succeeds a) = 1 := by
    intro a ha
    have hpos := hsucc a ha
    have hle := h.succeeds_le_one ha
    omega
  have hstarted := h.balanced.started i hi
  rw [hempty] at hstarted
  have htriggered : tr.countP (Label.triggers (P.agents (i + 1))) = 1 := by
    cases hc : P.counter i with
    | none =>
        obtain ⟨a, ha⟩ := P.exists_eq_singleton hi hc
        rw [h.balanced.triggeredBySuccess i a hi ha]
        exact hone a (by simp [ha])
    | some c =>
        have hinv := h.counters i c hi hc
        have hreported := h.balanced.reported i c hc
        have hexhausted := h.balanced.exhausted c
        have hsum : ((P.agents i).map fun a => tr.countP (Label.succeeds a)).sum
            = (P.agents i).length := by
          rw [List.map_congr_left hone]
          simp
        rw [hempty, hinv.misses, hsum] at hreported
        rw [hempty] at hexhausted
        rw [h.balanced.triggeredByCounter i c hi hc, hinv.misses]
        rcases hinv.file with ⟨hlt, -, -, -⟩ | ⟨-, hexh, hrem⟩ | ⟨-, -, hrem⟩ <;> omega
  exact ⟨htriggered, by omega⟩

end Levels

section Termination

mutual

/-- A bound for the number of steps that a job causes. -/
def Envelope.weight : Envelope → ℕ
  | .runlevel _ _ jobs => 2 + Envelope.weights jobs
  | .agent _ _ completed => completed.weight + 1
  | .decrement _ completed => completed.weight + 4

def Envelope.weights : List Envelope → ℕ
  | [] => 0
  | job :: jobs => job.weight + 1 + Envelope.weights jobs

end

def Task.weight : Task → ℕ
  | .queued job _ => job.weight
  | .afterwards jobs => 1 + Envelope.weights jobs
  | .locking _ completed _ => completed.weight + 3
  | .removing _ _ completed => completed.weight + 2

theorem weights_setContent (content : String) (jobs : List Envelope) :
    Envelope.weights (jobs.map (Envelope.setContent content)) = Envelope.weights jobs := by
  induction jobs with
  | nil => rfl
  | cons job jobs ih =>
      have hjob : (job.setContent content).weight = job.weight := by
        cases job <;> rfl
      rw [List.map_cons, Envelope.weights, Envelope.weights, ih, hjob]

theorem weight_fire_le (completed : Envelope) (event : Option EventStatus) :
    ((fire completed event).map Task.weight).sum ≤ completed.weight := by
  rw [sum_map_fire]
  cases event with
  | none => exact Nat.zero_le _
  | some s => exact Nat.le_refl _

theorem weight_pos (job : Envelope) : 0 < job.weight := by
  cases job <;> simp [Envelope.weight]

/-- Every execution lowers the weight, except for a decrement that has lost its file
while it waited for the lock. -/
theorem Exec.weight_lt {t : Task} {cs cs' : Counters} {l : Label} {new : List Task}
    (h : Exec t cs l new cs')
    (hfile : ∀ c completed event, t = .locking c completed event → cs.file c ≠ none) :
    (new.map Task.weight).sum < t.weight := by
  cases h with
  | aborted | crashed => simp [Task.weight, weight_pos]
  | started progress content jobs agents event _ resp hrun =>
      obtain ⟨-, hagents⟩ := doRunlevelGlobalAgents_ok hrun
      simp only [hagents, List.map_cons, List.map_nil, List.sum_cons, List.sum_nil,
        Task.weight, Envelope.weight, weights_setContent]
      omega
  | dispatched job jobs | refused job jobs =>
      simp only [List.map_cons, List.map_nil, List.sum_cons, List.sum_nil, Task.weight,
        Envelope.weights]
      omega
  | cleared jobs =>
      simp only [List.map_nil, List.sum_nil, Task.weight]
      omega
  | completed a content completed event _ status =>
      have hle := weight_fire_le completed (some status)
      simp only [Task.weight, Envelope.weight]
      omega
  | failed c completed event _ s err =>
      have hle := weight_fire_le completed (completedEvent s (.error err))
      simp only [Task.weight, Envelope.weight]
      omega
  | missing c completed =>
      have hle := weight_fire_le completed (completedEvent .fresh (.ok .success))
      simp only [Task.weight, Envelope.weight]
      omega
  | removed c value completed =>
      have hle := weight_fire_le completed (completedEvent .fresh (.ok .success))
      simp only [Task.weight]
      omega
  | opened c completed event =>
      simp only [List.map_cons, List.map_nil, List.sum_cons, List.sum_nil, Task.weight,
        Envelope.weight]
      omega
  | decremented c completed event _ value =>
      split <;> simp [Task.weight]
  | retried c completed event _ hnone =>
      exact absurd hnone (hfile c completed event rfl)

theorem exists_exec (t : Task) (cs : Counters) : ∃ l new cs', Exec t cs l new cs' := by
  cases t with
  | queued job event =>
      cases job with
      | runlevel progress content jobs =>
          rcases doRunlevelGlobalAgents_cases event content jobs with
            ⟨-, resp, hok⟩ | ⟨-, err, herr⟩
          · exact ⟨_, _, _, .started progress content jobs _ event cs resp hok⟩
          · exact ⟨_, _, _, .aborted progress content jobs event cs err herr⟩
      | agent a content completed =>
          exact ⟨_, _, _, .completed a content completed event cs
            ⟨.completed, 100, 0, []⟩ ⟨rfl, .inl rfl⟩⟩
      | decrement c completed =>
          cases hentry : decrementEntry event (cs.file c).isSome with
          | threw s err => exact ⟨_, _, _, .failed c completed event cs s err hentry⟩
          | crashed => exact ⟨_, _, _, .crashed c completed event cs hentry⟩
          | missing => exact ⟨_, _, _, .missing c completed event cs hentry⟩
          | opens => exact ⟨_, _, _, .opened c completed event cs hentry⟩
  | afterwards jobs => exact ⟨_, _, _, .cleared jobs cs⟩
  | locking c completed event =>
      cases hfile : cs.file c with
      | none => exact ⟨_, _, _, .retried c completed event cs hfile⟩
      | some value => exact ⟨_, _, _, .decremented c completed event cs value hfile⟩
  | removing c value completed => exact ⟨_, _, _, .removed c value completed cs⟩

variable {P : Plan} {event : Option EventStatus} {cs : Counters} {tr : List Label}
  {p : Pool Counters Task}

/-- The decrements that wait for the lock of a counter find its file. -/
theorem InOrder.file_ne_none (h : InOrder P tr p) (hbelongs : ∀ t ∈ p.tasks, P.Belongs t)
    {c : ℕ} {completed : Envelope} {event : Option EventStatus}
    (ht : Task.locking c completed event ∈ p.tasks) : p.store.file c ≠ none := by
  obtain ⟨i, hi, hc, -, -⟩ := hbelongs _ ht
  have hpending := h.pending_le hc
  have hdec := Pool.le_total (Task.decrementing c) ht
  have hone : Task.decrementing c (.locking c completed event) = 1 := by
    simp [Task.decrementing]
  rcases (h.counters i c hi hc).file with
    ⟨-, -, -, hfile⟩ | ⟨hdecs, -, -⟩ | ⟨hdecs, -, -⟩
  · rw [hfile]
    exact Option.some_ne_none _
  · omega
  · omega

/-- The runs of a pipeline are bounded. -/
theorem length_le_weight
    (hcs : ∀ i c, P.counter i = some c → cs.file c = some ((P.agents i).length : ℤ))
    (h : Pool.Run Exec (P.start event cs) tr p) : tr.length ≤ (P.job 0).weight := by
  have hle := h.length_add_total_le Task.weight ?_
  · simp only [Plan.start, Pool.total, List.map_cons, List.map_nil, List.sum_cons,
      List.sum_nil, Task.weight] at hle
    omega
  · intro tr p hrun t ht l new cs' hexec
    refine hexec.weight_lt ?_
    intro c completed event' heq
    rw [heq] at ht
    exact (inOrder_of_run hcs hrun).file_ne_none (belongs_of_run hrun) ht

end Termination

section Barrier

/-- What holds of every run of the pipeline for the queue `q`, with the labels `tr` and
the pool `p` at its end. -/
structure Barrier (config : AgentConfig) (q : List (List Agent)) (tr : List Label)
    (p : Pool Counters Task) : Prop where
  /-- an agent is dispatched after everything below it, and so everything that it
  requires directly or indirectly, has completed with code 0 -/
  waits : ∀ pre l post a b, tr = pre ++ l :: post → l.dispatches a = true →
    (Below q b a ∨ Relation.TransGen config.Requires b a) →
    ∃ l' ∈ pre, l'.succeeds b = true
  /-- no agent is dispatched twice -/
  dispatchedOnce : ∀ a, tr.countP (Label.dispatches a) ≤ 1
  /-- no level is started twice: neither is its job handed out twice, nor does it run and
  go ahead twice -/
  startedOnce : ∀ i, i < q.length →
    tr.countP (Label.triggers (levelNames q (i + 1))) ≤ 1 ∧
      tr.countP (Label.starts (levelNames q (i + 1))) ≤ 1
  /-- what starts the next level is the completion of the only agent of the level, or the
  run that has taken the counter of the level, which its agents report to, to 0 -/
  startedBy : ∀ i l, i < q.length → l ∈ tr →
    l.triggers (levelNames q (i + 1)) = true →
    (∃ a, levelNames q i = [a] ∧ l.succeeds a = true) ∨
    ((levelNames q i).length ≠ 1 ∧ ∃ c, l.action = .removed c 0 ∧
      tr.countP (Label.exhausts c) = 1 ∧
      ∀ l' ∈ tr, l'.reports c = true ↔ ∃ a ∈ levelNames q i, l'.succeeds a = true)
  /-- at the end the level after a successful level has been started -/
  startedAtEnd : p.tasks = [] → ∀ i, i < q.length →
    (∀ a ∈ levelNames q i, ∃ l ∈ tr, l.succeeds a = true) →
    tr.countP (Label.triggers (levelNames q (i + 1))) = 1 ∧
      tr.countP (Label.starts (levelNames q (i + 1))) = 1
  /-- after a failure no agent of a later level is dispatched -/
  stops : ∀ pre l post a b s, tr = pre ++ l :: post → l.action = .completed b s →
    s.code ≠ 0 → Below q b a → ∀ l' ∈ post, l'.dispatches a = false

variable {P : Plan} {event : Option EventStatus} {cs : Counters} {tr : List Label}
  {p : Pool Counters Task}

theorem InOrder.dispatches_le_one (h : InOrder P tr p) (a : String) :
    tr.countP (Label.dispatches a) ≤ 1 := by
  by_cases ha : ∃ i, a ∈ P.agents i
  · obtain ⟨i, hi⟩ := ha
    have hle := h.balanced.dispatched i a hi
    have hone := h.starts_le_one i (Nat.le_of_lt (P.lt_size_of_mem hi))
    omega
  · have hzero := h.balanced.foreign a fun i hi => ha ⟨i, hi⟩
    omega

/-- In a run that ends with the dispatch of an agent, everything below it has succeeded
before. -/
theorem InOrder.succeeded_of_dispatched {l : Label} (h : InOrder P (tr ++ [l]) p)
    {a b : String} {i j : ℕ} (hl : l.dispatches a = true) (hij : i < j)
    (hb : b ∈ P.agents i) (ha : a ∈ P.agents j) : ∃ l' ∈ tr, l'.succeeds b = true := by
  have hdispatched : 0 < (tr ++ [l]).countP (Label.dispatches a) :=
    List.countP_pos_iff.mpr ⟨l, by simp, hl⟩
  have hle := h.balanced.dispatched j a ha
  have hsucc := h.succeeded_below (Nat.le_of_lt (P.lt_size_of_mem ha)) (by omega) i b hij hb
  obtain ⟨l', hl', hsucc'⟩ :=
    List.countP_pos_iff.mp (show 0 < (tr ++ [l]).countP (Label.succeeds b) by omega)
  refine ⟨l', ?_, hsucc'⟩
  rcases List.mem_append.mp hl' with hmem | hmem
  · exact hmem
  · rw [List.mem_singleton.mp hmem] at hsucc'
    obtain ⟨s, haction, -⟩ := succeeds_iff.mp hsucc'
    rw [Label.dispatches, haction] at hl
    cases hl

/-- An agent that has failed has not succeeded as well. -/
theorem InOrder.not_succeeds_of_failed (h : InOrder P tr p) {l : Label} {b : String}
    {s : EventStatus} (hl : l ∈ tr) (haction : l.action = .completed b s)
    (hcode : s.code ≠ 0) : ∀ l' ∈ tr, l'.succeeds b = false := by
  have hcompletes : tr.countP (Label.completes b) ≤ 1 := by
    have hcompleted := h.balanced.completed b
    have hone := h.dispatches_le_one b
    omega
  have hlt : tr.countP (Label.succeeds b) < tr.countP (Label.completes b) := by
    obtain ⟨pre, post, rfl⟩ := List.append_of_mem hl
    have hpre := countP_succeeds_le_completes b pre
    have hpost := countP_succeeds_le_completes b post
    have hfails : l.succeeds b = false := by
      simp [Label.succeeds, haction, hcode]
    have hdone : l.completes b = true := by
      simp [Label.completes, haction]
    simp only [List.countP_append, List.countP_cons, hfails, hdone, if_true,
      Bool.false_eq_true, if_false]
    omega
  intro l' hl'
  have hzero : tr.countP (Label.succeeds b) = 0 := by omega
  exact Bool.eq_false_iff.mpr (List.countP_eq_zero.mp hzero l' hl')

theorem InOrder.exhausts_eq_one (h : InOrder P tr p) {i c : ℕ} (hi : i < P.size)
    (hc : P.counter i = some c) (hremoves : 0 < tr.countP (Label.removes c)) :
    tr.countP (Label.exhausts c) = 1 := by
  rcases (h.counters i c hi hc).file with ⟨-, -, hrem, -⟩ | ⟨-, hexh, -⟩ | ⟨-, hexh, -⟩
  · omega
  · exact hexh
  · exact hexh

/-- What has triggered the next level. -/
theorem InOrder.triggered_by (h : InOrder P tr p) (hlabels : ∀ l ∈ tr, P.Describes l)
    {i : ℕ} {l : Label} (hi : i < P.size) (hl : l ∈ tr)
    (htriggers : l.triggers (P.agents (i + 1)) = true) :
    (∃ a, P.agents i = [a] ∧ l.succeeds a = true) ∨
    ((P.agents i).length ≠ 1 ∧ ∃ c, l.action = .removed c 0 ∧
      tr.countP (Label.exhausts c) = 1 ∧
      ∀ l' ∈ tr, l'.reports c = true ↔ ∃ a ∈ P.agents i, l'.succeeds a = true) := by
  rcases ((hlabels l hl).triggers_iff hi).mp htriggers with
    ⟨hnone, a, ha, hsucc⟩ | ⟨c, hc, hcounter⟩
  · obtain ⟨b, hb⟩ := P.exists_eq_singleton hi hnone
    rw [hb, List.mem_singleton] at ha
    exact .inl ⟨b, hb, ha ▸ hsucc⟩
  · have hinv := h.counters i c hi hc
    have hmany : (P.agents i).length ≠ 1 := by
      rw [Ne, ← P.counter_eq_none i hi, hc]
      exact Option.some_ne_none c
    have hremoves : l.removes c = true := by
      rcases hcounter with hremoves | hmisses
      · exact hremoves
      · exact absurd hmisses (List.countP_eq_zero.mp hinv.misses l hl)
    obtain ⟨value, haction⟩ := removes_iff.mp hremoves
    rw [hinv.removed l hl value haction] at haction
    refine .inr ⟨hmany, c, haction, ?_, fun l' hl' => (hlabels l' hl').reports_iff hc⟩
    exact h.exhausts_eq_one hi hc (List.countP_pos_iff.mpr ⟨l, hl, hremoves⟩)

/-- For every configuration that `job_queue` accepts, and whatever the order in which the
jobs of the pipeline run, the levels are separated by a barrier. The runs are bounded and
never get stuck, so every run reaches an end. -/
theorem pipeline_barrier
    (topologicalSort : ℕ → List (ℕ × ℕ) → Except String (List ℕ))
    (htopological : ∀ n es order, topologicalSort n es = .ok order →
      IsTopologicalOrder n es order)
    (config : AgentConfig) (q : List (List Agent))
    (hq : jobQueue topologicalSort config = .ok q) (content : String)
    (event : Option EventStatus) (cs : Counters) :
    (∀ tr p, Pool.Run Exec (doRunGlobalAgents q content event cs) tr p →
      Barrier config q tr p) ∧
    (∃ bound, ∀ tr p, Pool.Run Exec (doRunGlobalAgents q content event cs) tr p →
      tr.length ≤ bound) ∧
    ∀ tr p, Pool.Run Exec (doRunGlobalAgents q content event cs) tr p → p.tasks ≠ [] →
      ∃ l p', Pool.Step Exec p l p' := by
  have hqueue := jobQueue_isQueue htopological hq
  obtain ⟨P, cs', hstart, hsize, hagents, hcs⟩ := exists_plan hqueue content event cs
  rw [hstart]
  refine ⟨?_, ⟨(P.job 0).weight, fun tr p hrun => length_le_weight hcs hrun⟩,
    fun tr p _ hp => Pool.exists_step exists_exec hp⟩
  intro tr p hrun
  have hinOrder := inOrder_of_run hcs hrun
  have hwaits : ∀ pre l post a b, tr = pre ++ l :: post → l.dispatches a = true →
      Below q b a → ∃ l' ∈ pre, l'.succeeds b = true := by
    intro pre l post a b htr hl hbelow
    obtain ⟨i, j, hij, hb, ha⟩ := hbelow
    have hsplit : tr = (pre ++ [l]) ++ post := by simp [htr]
    obtain ⟨p', hrun'⟩ := hrun.split hsplit
    rw [← hagents] at hb ha
    exact (inOrder_of_run hcs hrun').succeeded_of_dispatched hl hij hb ha
  refine ⟨?_, hinOrder.dispatches_le_one, ?_, ?_, ?_, ?_⟩
  · intro pre l post a b htr hl hbelow
    rcases hbelow with hbelow | hrequires
    · exact hwaits pre l post a b htr hl hbelow
    · exact hwaits pre l post a b htr hl (hqueue.below_of_transGen hrequires)
  · intro i hi
    rw [← hsize] at hi
    rw [← hagents]
    exact ⟨hinOrder.triggers_le_one hi (hinOrder.starts_le_one i (Nat.le_of_lt hi)),
      hinOrder.starts_le_one (i + 1) hi⟩
  · intro i l hi hl htriggers
    rw [← hsize] at hi
    rw [← hagents] at htriggers ⊢
    exact hinOrder.triggered_by (describes_of_run hrun) hi hl htriggers
  · intro hp i hi hsucc
    rw [← hsize] at hi
    rw [← hagents] at hsucc ⊢
    exact hinOrder.started_of_succeeded hp hi
      fun a ha => List.countP_pos_iff.mpr (hsucc a ha)
  · intro pre l post a b s htr haction hcode hbelow l' hl'
    rw [← Bool.not_eq_true]
    intro hdispatches
    obtain ⟨mid, post', rfl⟩ := List.append_of_mem hl'
    obtain ⟨l'', hl'', hsucc⟩ := hwaits (pre ++ l :: mid) l' post' a b
      (by simp [htr]) hdispatches hbelow
    have hmem : l ∈ tr := by simp [htr]
    have hmem'' : l'' ∈ tr := by
      have hsplit : tr = (pre ++ l :: mid) ++ l' :: post' := by simp [htr]
      rw [hsplit]
      exact List.mem_append_left _ hl''
    have hfails := hinOrder.not_succeeds_of_failed hmem haction hcode l'' hmem''
    rw [hsucc] at hfails
    cases hfails

/-- Two agents, and a third one that requires both. -/
def joinConfig : AgentConfig where
  entries :=
    [⟨"do_put_dns_agent_v1", none, none, []⟩,
      ⟨"do_put_nfs_agent_v1", some "SYNC", some 60, []⟩,
      ⟨"do_put_vm_agent_v1", none, none, ["do_put_dns_agent_v1", "do_put_nfs_agent_v1"]⟩]
  key := by decide

/-- The order that `boost::topological_sort` gives for the graph of `joinConfig`. -/
def joinSort (n : ℕ) (es : List (ℕ × ℕ)) : Except String (List ℕ) :=
  if n = 3 ∧ es = [(0, 2), (1, 2)] then .ok [1, 0, 2]
  else .error "The graph must be a DAG."

theorem joinSort_isTopologicalOrder (n : ℕ) (es : List (ℕ × ℕ)) (order : List ℕ)
    (h : joinSort n es = .ok order) : IsTopologicalOrder n es order := by
  rw [joinSort] at h
  split at h
  next heq =>
    cases h
    rw [heq.1, heq.2]
    refine ⟨by decide, ?_⟩
    intro pre i post hsplit k hk
    have hi : i = 2 := by
      rcases List.mem_cons.mp hk with h | h
      · cases h
        rfl
      · rw [List.mem_singleton] at h
        cases h
        rfl
    match pre with
    | [] =>
        rw [hi] at hsplit
        cases hsplit
    | [_] =>
        rw [hi] at hsplit
        cases hsplit
    | [a, b] =>
        cases hsplit
        simp at hk ⊢
        omega
    | a :: b :: c :: pre => simp at hsplit
  next => cases h

theorem pipeline_barrier_join :
    jobQueue joinSort joinConfig = .ok
      [[⟨"do_put_nfs_agent_v1", .sync, 60⟩, ⟨"do_put_dns_agent_v1", .async, 0⟩],
        [⟨"do_put_vm_agent_v1", .async, 0⟩]] ∧
    ∀ tr p, Pool.Run Exec
      (doRunGlobalAgents
        [[⟨"do_put_nfs_agent_v1", .sync, 60⟩, ⟨"do_put_dns_agent_v1", .async, 0⟩],
          [⟨"do_put_vm_agent_v1", .async, 0⟩]] "{}" none ⟨fun _ => none, 0⟩) tr p →
      Barrier joinConfig
        [[⟨"do_put_nfs_agent_v1", .sync, 60⟩, ⟨"do_put_dns_agent_v1", .async, 0⟩],
          [⟨"do_put_vm_agent_v1", .async, 0⟩]] tr p :=
  ⟨by rfl, (pipeline_barrier joinSort joinSort_isTopologicalOrder joinConfig _ (by rfl)
    "{}" none ⟨fun _ => none, 0⟩).1⟩

end Barrier

end Agents

end Gearbox
