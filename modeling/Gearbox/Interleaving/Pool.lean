import Mathlib.Algebra.Order.BigOperators.Group.List
import Mathlib.Algebra.Order.Group.Nat
import Mathlib.Algebra.Order.Ring.Nat
import Mathlib.Data.List.Count

/-!
# Pools of tasks

A `Pool` is a store together with the tasks that are waiting to be executed, in any
number. A step takes one of the tasks, whichever, executes it against the store and puts
the tasks that it gives rise to in its place. So a run of a pool is an order in which
tasks that create further tasks are executed, and a property of every run is one of
every such order.

What holds after every run is mostly a matter of accounting. If every execution of a
task keeps the balance between a weight of the tasks and the number of labels of two
kinds, then so does every run (`Run.balance`, `Run.balance_le`); if every execution
lowers the weight, then the runs are bounded (`Run.length_add_total_le`).
-/

namespace Interleaving

/-- A store and the tasks that are waiting. -/
structure Pool (S T : Type) where
  store : S
  tasks : List T

namespace Pool

section Runs

variable {S T A : Type}

/-- One step: `exec t σ l new σ'` says that the task `t` can be executed on the store `σ`
with the label `l`, leaving the tasks `new` and the store `σ'`. -/
inductive Step (exec : T → S → A → List T → S → Prop) :
    Pool S T → A → Pool S T → Prop
  | exec (pre post : List T) (t : T) (new : List T) (σ σ' : S) (l : A)
      (h : exec t σ l new σ') :
      Step exec ⟨σ, pre ++ t :: post⟩ l ⟨σ', pre ++ new ++ post⟩

/-- The runs of a pool, with the labels of their steps. -/
inductive Run (exec : T → S → A → List T → S → Prop) (p₀ : Pool S T) :
    List A → Pool S T → Prop
  | nil : Run exec p₀ [] p₀
  | snoc {tr : List A} {p p' : Pool S T} {l : A} (h : Run exec p₀ tr p)
      (hs : Step exec p l p') : Run exec p₀ (tr ++ [l]) p'

/-- The weight of all waiting tasks. -/
def total (w : T → ℕ) (p : Pool S T) : ℕ :=
  (p.tasks.map w).sum

variable {exec : T → S → A → List T → S → Prop} {p₀ p : Pool S T} {tr : List A}

/-- Every run passes through the states of its initial segments. -/
theorem Run.split {pre post : List A} (h : Run exec p₀ tr p)
    (htr : tr = pre ++ post) : ∃ p', Run exec p₀ pre p' := by
  induction h generalizing post with
  | nil =>
      have hpre : pre = [] := (List.append_eq_nil_iff.mp htr.symm).1
      rw [hpre]
      exact ⟨p₀, .nil⟩
  | @snoc tr p p' l hrun hs ih =>
      rcases List.eq_nil_or_concat post with rfl | ⟨post, x, rfl⟩
      · rw [List.append_nil] at htr
        rw [← htr]
        exact ⟨p', .snoc hrun hs⟩
      · rw [List.concat_eq_append, ← List.append_assoc] at htr
        exact ih (List.append_inj' htr rfl).1

/-- A condition on tasks that is handed on to the new tasks holds of all tasks. -/
theorem Run.forall_tasks (P : T → Prop) (h₀ : ∀ t ∈ p₀.tasks, P t)
    (hstep : ∀ t σ l new σ', P t → exec t σ l new σ' → ∀ u ∈ new, P u)
    (h : Run exec p₀ tr p) : ∀ t ∈ p.tasks, P t := by
  induction h with
  | nil => exact h₀
  | @snoc tr p p' l hrun hs ih =>
      cases hs with
      | exec pre post t new σ σ' l hexec =>
          have hnew := hstep t σ l new σ' (ih t (by simp)) hexec
          intro u hu
          simp only [List.mem_append] at hu
          rcases hu with (hu | hu) | hu
          · exact ih u (by simp [hu])
          · exact hnew u hu
          · exact ih u (by simp [hu])

/-- What every execution of a task that meets `P` says about its label holds of every
label of the run. -/
theorem Run.forall_labels (P : T → Prop) (Q : A → Prop)
    (htasks : ∀ tr p, Run exec p₀ tr p → ∀ t ∈ p.tasks, P t)
    (hstep : ∀ t σ l new σ', P t → exec t σ l new σ' → Q l)
    (h : Run exec p₀ tr p) : ∀ l ∈ tr, Q l := by
  induction h with
  | nil =>
      intro l hl
      cases hl
  | @snoc tr p p' l hrun hs ih =>
      have hP := htasks tr p hrun
      cases hs with
      | exec pre post t new σ σ' l hexec =>
          intro l' hl'
          rw [List.mem_append, List.mem_singleton] at hl'
          rcases hl' with hl' | rfl
          · exact ih l' hl'
          · exact hstep t σ l' new σ' (hP t (by simp)) hexec

theorem total_append (w : T → ℕ) (σ : S) (ts us : List T) :
    total w ⟨σ, ts ++ us⟩ = (ts.map w).sum + (us.map w).sum := by
  rw [total, List.map_append, List.sum_append]

theorem total_pick (w : T → ℕ) (σ : S) (pre post : List T) (t : T) :
    total w ⟨σ, pre ++ t :: post⟩
      = w t + ((pre.map w).sum + (post.map w).sum) := by
  rw [total_append, List.map_cons, List.sum_cons]
  omega

theorem total_put (w : T → ℕ) (σ : S) (pre new post : List T) :
    total w ⟨σ, pre ++ new ++ post⟩
      = (new.map w).sum + ((pre.map w).sum + (post.map w).sum) := by
  rw [total_append, List.map_append, List.sum_append]
  omega

/-- The weight of one task is at most the weight of all. -/
theorem le_total (w : T → ℕ) {t : T} (ht : t ∈ p.tasks) : w t ≤ total w p :=
  List.le_sum_of_mem (List.mem_map_of_mem ht)

/-- If every execution keeps the weight of the tasks in balance with the labels that `q`
adds to it and `r` takes from it, then so does every run. -/
theorem Run.balance (w : T → ℕ) (q r : A → Bool) (P : T → Prop)
    (htasks : ∀ tr p, Run exec p₀ tr p → ∀ t ∈ p.tasks, P t)
    (hstep : ∀ t σ l new σ', P t → exec t σ l new σ' →
      (new.map w).sum + (if r l then 1 else 0) = w t + if q l then 1 else 0)
    (h : Run exec p₀ tr p) :
    total w p + tr.countP r = total w p₀ + tr.countP q := by
  induction h with
  | nil => rfl
  | @snoc tr p p' l hrun hs ih =>
      have hP := htasks tr p hrun
      cases hs with
      | exec pre post t new σ σ' l hexec =>
          have hlocal := hstep t σ l new σ' (hP t (by simp)) hexec
          rw [total_pick] at ih
          rw [total_put, List.countP_append, List.countP_append,
            List.countP_singleton, List.countP_singleton]
          omega

/-- The balance as an inequality, for weights that may also get lost. -/
theorem Run.balance_le (w : T → ℕ) (q r : A → Bool) (P : T → Prop)
    (htasks : ∀ tr p, Run exec p₀ tr p → ∀ t ∈ p.tasks, P t)
    (hstep : ∀ t σ l new σ', P t → exec t σ l new σ' →
      (new.map w).sum + (if r l then 1 else 0) ≤ w t + if q l then 1 else 0)
    (h : Run exec p₀ tr p) :
    total w p + tr.countP r ≤ total w p₀ + tr.countP q := by
  induction h with
  | nil => exact Nat.le_refl _
  | @snoc tr p p' l hrun hs ih =>
      have hP := htasks tr p hrun
      cases hs with
      | exec pre post t new σ σ' l hexec =>
          have hlocal := hstep t σ l new σ' (hP t (by simp)) hexec
          rw [total_pick] at ih
          rw [total_put, List.countP_append, List.countP_append,
            List.countP_singleton, List.countP_singleton]
          omega

/-- If every execution in a reachable state lowers the weight, then the runs are no
longer than the weight at the beginning. -/
theorem Run.length_add_total_le (w : T → ℕ)
    (hstep : ∀ tr p, Run exec p₀ tr p → ∀ t ∈ p.tasks, ∀ l new σ',
      exec t p.store l new σ' → (new.map w).sum < w t)
    (h : Run exec p₀ tr p) : tr.length + total w p ≤ total w p₀ := by
  induction h with
  | nil => simp
  | @snoc tr p p' l hrun hs ih =>
      have hlower := hstep tr p hrun
      cases hs with
      | exec pre post t new σ σ' l hexec =>
          have hlocal := hlower t (by simp) l new σ' hexec
          rw [total_pick] at ih
          rw [total_put, List.length_append, List.length_singleton]
          omega

/-- A pool in which every task can be executed takes a step unless it is empty. -/
theorem exists_step (hexec : ∀ t σ, ∃ l new σ', exec t σ l new σ')
    (hp : p.tasks ≠ []) : ∃ l p', Step exec p l p' := by
  obtain ⟨t, ts, hts⟩ := List.exists_cons_of_ne_nil hp
  obtain ⟨l, new, σ', h⟩ := hexec t p.store
  refine ⟨l, ⟨σ', [] ++ new ++ ts⟩, ?_⟩
  have hpick : p = ⟨p.store, [] ++ t :: ts⟩ := by rw [List.nil_append, ← hts]
  rw [hpick]
  exact .exec [] ts t new p.store σ' l h

end Runs

end Pool

end Interleaving
