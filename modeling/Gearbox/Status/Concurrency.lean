import Mathlib.Algebra.Order.Group.Int
import Mathlib.Data.List.Induction
import Mathlib.Data.List.Infix
import Gearbox.Status.Sql
import Gearbox.Status.Transient

/-!
# The concurrency counter

`starting()` and `stopping()` move a counter that is shared by all handles on a status.
The SQL implementation moves the column relative to itself, in one transaction, so that
the order of the calls and the handles they go through do not matter. The transient
implementation writes its cached value plus or minus one to the shared record, so that
a call through a handle that was loaded before the last change overwrites this change.

Each call is one transaction, or one piece of code of a single thread, so the
interleavings of calls are the lists of calls. `Counts` says that a fetched handle
observes the number of starts minus the number of stops after every initial segment of
such a list, and `concurrency_counts_iff` says when.
-/

namespace Gearbox

namespace Status

open Interleaving

/-- The calls that move the counter, and the two ways of loading a handle again. -/
inductive Call where
  | starting
  | stopping
  | sync
  | fetch
  deriving DecidableEq, Repr

section Counting

variable {ι : Type}

/-- The number of `starting()` calls. -/
def startings (cs : List (ι × Call)) : ℕ := cs.countP fun c => c.2 = .starting

/-- The number of `stopping()` calls. -/
def stoppings (cs : List (ι × Call)) : ℕ := cs.countP fun c => c.2 = .stopping

/-- How many callers have started and not stopped. -/
def outstanding (cs : List (ι × Call)) : ℤ := startings cs - stoppings cs

/-- No initial segment has more stops than starts. -/
def Balanced (cs : List (ι × Call)) : Prop :=
  ∀ pre, pre <+: cs → stoppings pre ≤ startings pre

/-- The value that `observe` gives after every initial segment of the calls is the number
of starts minus the number of stops so far. -/
def Counts (observe : List (ι × Call) → Option ℕ) (cs : List (ι × Call)) : Prop :=
  ∀ pre, pre <+: cs → ∃ n, observe pre = some n ∧ (n : ℤ) = startings pre - stoppings pre

/-- After every initial segment fewer than `2 ^ 32` callers are outstanding. -/
def Fits (cs : List (ι × Call)) : Prop :=
  ∀ pre, pre <+: cs → outstanding pre < 2 ^ 32

instance (cs : List (ι × Call)) : Decidable (Balanced cs) :=
  decidable_of_iff (∀ pre ∈ cs.inits, stoppings pre ≤ startings pre)
    (by simp [Balanced])

instance (cs : List (ι × Call)) : Decidable (Fits cs) :=
  decidable_of_iff (∀ pre ∈ cs.inits, outstanding pre < 2 ^ 32) (by simp [Fits])

/-- By how much a call moves the counter. -/
def Call.delta : Call → ℤ
  | .starting => 1
  | .stopping => -1
  | .sync | .fetch => 0

@[simp] theorem outstanding_nil : outstanding ([] : List (ι × Call)) = 0 := rfl

theorem outstanding_snoc (cs : List (ι × Call)) (k : ι) (c : Call) :
    outstanding (cs ++ [(k, c)]) = outstanding cs + c.delta := by
  unfold outstanding startings stoppings
  rw [List.countP_append, List.countP_append]
  cases c with
  | starting => simp [Call.delta]; omega
  | stopping => simp [Call.delta]; omega
  | sync => simp [Call.delta]
  | fetch => simp [Call.delta]

theorem Balanced.outstanding_nonneg {cs pre : List (ι × Call)} (h : Balanced cs)
    (hpre : pre <+: cs) : 0 ≤ outstanding pre := by
  have := h pre hpre
  unfold outstanding
  omega

end Counting

section Sql

variable {X : Type} {Y : X → Type}

/-- The transaction of `SQLStatusImpl::starting`. -/
def startingTx (r : Row) : Row := { r with concurrency := r.concurrency + 1 }

/-- The transaction of `SQLStatusImpl::stopping`. -/
def stoppingTx (r : Row) : Row := { r with concurrency := r.concurrency - 1 }

/-- `SQLStatusImpl::starting` -/
def Handle.starting (h : Handle) : Prog Row Y Handle := do
  let _ ← Prog.transact startingTx
  return h

/-- `SQLStatusImpl::stopping` -/
def Handle.stopping (h : Handle) : Prog Row Y Handle := do
  let _ ← Prog.transact stoppingTx
  return h

/-- `SQLStatusImpl::concurrency() const`: the column, read into a `uint32_t`. -/
def Handle.concurrency (h : Handle) : Prog Row Y (ℕ × Handle) := do
  let r ← Prog.select
  return ((r.concurrency % 2 ^ 32).toNat, h)

/-- `StatusManager::fetch`: a new handle that will load the row when it is asked. -/
def Handle.fetched : Handle := { shouldLoad := true }

/-- One call through the handle `h`. -/
def Call.sql (h : Handle) : Call → Prog Row Y Handle
  | .starting => h.starting
  | .stopping => h.stopping
  | .sync => h.sync
  | .fetch => return .fetched

end Sql

/-- A row and the handles on it. -/
structure SqlStatus (ι : Type) where
  row : Row
  handle : ι → Handle

section SqlRuns

variable {ι : Type} [DecidableEq ι]

/-- One call through the handle `k`. -/
def SqlStatus.call (s : SqlStatus ι) (kc : ι × Call) : SqlStatus ι :=
  let (h, r) := (kc.2.sql (Y := fun _ : Empty => Unit) (s.handle kc.1)).alone s.row
  { row := r, handle := Function.update s.handle kc.1 h }

/-- The concurrency that a newly fetched handle observes after the calls. -/
def SqlStatus.observe (s : SqlStatus ι) (cs : List (ι × Call)) : Option ℕ :=
  some ((Handle.fetched.concurrency (Y := fun _ : Empty => Unit)).alone
    (cs.foldl SqlStatus.call s).row).1.1

theorem SqlStatus.call_concurrency (s : SqlStatus ι) (kc : ι × Call) :
    (s.call kc).row.concurrency = s.row.concurrency + kc.2.delta := by
  obtain ⟨k, c⟩ := kc
  cases c with
  | starting => rfl
  | stopping => rfl
  | sync => exact (add_zero _).symm
  | fetch => exact (add_zero _).symm

/-- The column moves by what is outstanding, whichever handles the calls go through. -/
theorem SqlStatus.calls_concurrency (s : SqlStatus ι) (cs : List (ι × Call)) :
    (cs.foldl SqlStatus.call s).row.concurrency = s.row.concurrency + outstanding cs := by
  induction cs using List.reverseRecOn with
  | nil => exact (add_zero _).symm
  | append_singleton cs kc ih =>
      rw [List.foldl_append, List.foldl_cons, List.foldl_nil, SqlStatus.call_concurrency,
        ih, outstanding_snoc, add_assoc]

theorem SqlStatus.observe_eq {s : SqlStatus ι} (hs : s.row.concurrency = 0)
    (cs : List (ι × Call)) :
    s.observe cs = some (outstanding cs % 2 ^ 32).toNat := by
  have hcol := s.calls_concurrency cs
  rw [hs, zero_add] at hcol
  rw [← hcol]
  rfl

/-- The SQL counter is right as long as it fits into the `uint32_t` it is read into. -/
theorem SqlStatus.counts_iff {s : SqlStatus ι} (hs : s.row.concurrency = 0)
    {cs : List (ι × Call)} (hcs : Balanced cs) : Counts s.observe cs ↔ Fits cs := by
  constructor
  · intro h pre hpre
    obtain ⟨n, hn, hcount⟩ := h pre hpre
    rw [SqlStatus.observe_eq hs, Option.some.injEq] at hn
    change (n : ℤ) = outstanding pre at hcount
    omega
  · intro h pre hpre
    have hnonneg := hcs.outstanding_nonneg hpre
    have hfits := h pre hpre
    refine ⟨_, SqlStatus.observe_eq hs pre, ?_⟩
    change _ = outstanding pre
    omega

end SqlRuns

namespace Transient

namespace TransientStatusImpl

/-- `TransientStatusImpl::concurrency(uint32_t)` -/
def setConcurrency (t : TransientStatusImpl) (d : TransDB) (count : ℕ) :
    TransientStatusImpl × TransDB :=
  let d := match t.data with
    | none => d
    | some i => d.write i fun r => { r with concurrency := count }
  ({ t with concurrency := count }, d)

/-- `TransientStatusImpl::starting` -/
def starting (t : TransientStatusImpl) (d : TransDB) : TransientStatusImpl × TransDB :=
  t.setConcurrency d ((t.concurrency + 1) % 2 ^ 32)

/-- `TransientStatusImpl::stopping` -/
def stopping (t : TransientStatusImpl) (d : TransDB) : TransientStatusImpl × TransDB :=
  t.setConcurrency d ((t.concurrency + (2 ^ 32 - 1)) % 2 ^ 32)

/-- `StatusManager::fetch`: a new handle, which is loaded at once. -/
def fetch (name : String) (d : TransDB) : Option TransientStatusImpl :=
  load { name := name } d

/-- One call; a handle that cannot be loaded stays as it was. -/
def call (t : TransientStatusImpl) (d : TransDB) : Call → TransientStatusImpl × TransDB
  | .starting => t.starting d
  | .stopping => t.stopping d
  | .sync => ((t.sync d).getD (t.superState .unknown).2, d)
  | .fetch => ((fetch t.name d).getD t, d)

end TransientStatusImpl

/-- The records and the handles on one of them. -/
structure TransientStatus (ι : Type) where
  db : TransDB
  handle : ι → TransientStatusImpl

section TransientRuns

variable {ι : Type} [DecidableEq ι]

/-- One call through the handle `k`. -/
def TransientStatus.call (s : TransientStatus ι) (kc : ι × Call) : TransientStatus ι :=
  let (t, d) := (s.handle kc.1).call s.db kc.2
  { db := d, handle := Function.update s.handle kc.1 t }

/-- The concurrency that a newly fetched handle observes after the calls. -/
def TransientStatus.observe (s : TransientStatus ι) (name : String)
    (cs : List (ι × Call)) : Option ℕ :=
  (TransientStatusImpl.fetch name (cs.foldl TransientStatus.call s).db).map
    TransientStatusImpl.concurrency

/-- The record `i` is the one that is fetched under `name`, all handles are on it, and
the counters are of type `uint32_t`. -/
structure TransientStatus.On (s : TransientStatus ι) (name : String) (i : ℕ) : Prop where
  found : (s.db.db.findRev? fun j => (s.db.heap j).name = name) = some i
  name : ∀ k, (s.handle k).name = name
  data : ∀ k, (s.handle k).data = some i
  cached : ∀ k, (s.handle k).concurrency < 2 ^ 32
  stored : (s.db.heap i).concurrency < 2 ^ 32

/-- Every call that moves the counter goes through a handle whose cached value is the one
in the record. -/
def TransientStatus.UpToDate (s : TransientStatus ι) (i : ℕ) (cs : List (ι × Call)) :
    Prop :=
  ∀ pre k c, pre ++ [(k, c)] <+: cs → c = .starting ∨ c = .stopping →
    ((pre.foldl TransientStatus.call s).handle k).concurrency =
      ((pre.foldl TransientStatus.call s).db.heap i).concurrency

theorem TransientStatusImpl.superState_fields (t : TransientStatusImpl) (x : State) :
    (t.superState x).2 = { t with state := (t.superState x).2.state } := by
  unfold TransientStatusImpl.superState
  split <;> rfl

/-- A handle that is loaded has the counter of the record of its name. -/
theorem TransientStatusImpl.load_eq {t : TransientStatusImpl} {d : TransDB} {i : ℕ}
    (h : (d.db.findRev? fun j => (d.heap j).name = t.name) = some i) :
    ∃ t', t.load d = some t' ∧ t'.name = t.name ∧ t'.data = some i ∧
      t'.concurrency = (d.heap i).concurrency := by
  unfold TransientStatusImpl.load
  rw [h]
  dsimp only [Option.some_or]
  rw [TransientStatusImpl.superState_fields]
  exact ⟨_, rfl, rfl, rfl, rfl⟩

/-- The value that the record has after a call, if it had `stored`. -/
def TransientStatusImpl.counted (t : TransientStatusImpl) (stored : ℕ) : Call → ℕ
  | .starting => (t.concurrency + 1) % 2 ^ 32
  | .stopping => (t.concurrency + (2 ^ 32 - 1)) % 2 ^ 32
  | .sync | .fetch => stored

theorem TransientStatusImpl.counted_lt (t : TransientStatusImpl) {stored : ℕ}
    (h : stored < 2 ^ 32) (c : Call) : t.counted stored c < 2 ^ 32 := by
  cases c with
  | starting => exact Nat.mod_lt _ (Nat.two_pow_pos 32)
  | stopping => exact Nat.mod_lt _ (Nat.two_pow_pos 32)
  | sync => exact h
  | fetch => exact h

/-- What a call writes to the record, and that its handle has cached the same. -/
theorem TransientStatusImpl.call_spec {t : TransientStatusImpl} {d : TransDB} {i : ℕ}
    (hfound : (d.db.findRev? fun j => (d.heap j).name = t.name) = some i)
    (hdata : t.data = some i) (c : Call) :
    ∃ t', t.call d c = (t', d.write i fun r =>
        { r with concurrency := t.counted (d.heap i).concurrency c }) ∧
      t'.name = t.name ∧ t'.data = some i ∧
      t'.concurrency = t.counted (d.heap i).concurrency c := by
  have hsame : (d.write i fun r => { r with concurrency := (d.heap i).concurrency }) = d := by
    unfold TransDB.write
    rw [Function.update_eq_self]
  cases c with
  | starting =>
      refine ⟨{ t with concurrency := (t.concurrency + 1) % 2 ^ 32 }, ?_, rfl, hdata, rfl⟩
      unfold TransientStatusImpl.call TransientStatusImpl.starting
        TransientStatusImpl.setConcurrency
      rw [hdata]
      rfl
  | stopping =>
      refine ⟨{ t with concurrency := (t.concurrency + (2 ^ 32 - 1)) % 2 ^ 32 }, ?_, rfl,
        hdata, rfl⟩
      unfold TransientStatusImpl.call TransientStatusImpl.stopping
        TransientStatusImpl.setConcurrency
      rw [hdata]
      rfl
  | sync =>
      have hname : (t.superState .unknown).2.name = t.name := by
        rw [TransientStatusImpl.superState_fields]
      rw [← hname] at hfound
      obtain ⟨t', hload, hn, hd, hc⟩ := TransientStatusImpl.load_eq hfound
      refine ⟨t', ?_, hn.trans hname, hd, hc⟩
      unfold TransientStatusImpl.call TransientStatusImpl.sync
      rw [hload]
      exact congrArg (Prod.mk t') hsame.symm
  | fetch =>
      obtain ⟨t', hload, hn, hd, hc⟩ :=
        TransientStatusImpl.load_eq (t := { name := t.name }) hfound
      refine ⟨t', ?_, hn, hd, hc⟩
      unfold TransientStatusImpl.call TransientStatusImpl.fetch
      rw [hload]
      exact congrArg (Prod.mk t') hsame.symm

theorem TransientStatus.On.call {s : TransientStatus ι} {name : String} {i : ℕ}
    (h : s.On name i) (k : ι) (c : Call) :
    (s.call (k, c)).On name i ∧
      ((s.call (k, c)).db.heap i).concurrency =
        (s.handle k).counted (s.db.heap i).concurrency c := by
  have hfound := h.found
  rw [← h.name k] at hfound
  obtain ⟨t', hcall, hname, hdata, hcached⟩ :=
    TransientStatusImpl.call_spec hfound (h.data k) c
  have hlt := (s.handle k).counted_lt h.stored c
  generalize (s.handle k).counted (s.db.heap i).concurrency c = n at *
  have hs : s.call (k, c) =
      { db := s.db.write i fun r => { r with concurrency := n },
        handle := Function.update s.handle k t' } := by
    unfold TransientStatus.call
    rw [hcall]
  have hnames : ∀ j, ((s.db.write i fun r => { r with concurrency := n }).heap j).name =
      (s.db.heap j).name := by
    intro j
    unfold TransDB.write
    by_cases hj : j = i
    · subst hj
      simp
    · simp [Function.update_of_ne hj]
  -- what holds of the new handle and of the old ones holds of all
  have hall : ∀ P : TransientStatusImpl → Prop, P t' → (∀ j, P (s.handle j)) →
      ∀ j, P (Function.update s.handle k t' j) := by
    intro P hnew hold j
    by_cases hj : j = k
    · subst hj
      rwa [Function.update_self]
    · rw [Function.update_of_ne hj]
      exact hold j
  rw [hs]
  refine ⟨⟨?_, ?_, ?_, ?_, ?_⟩, by simp⟩
  · simp only [hnames]
    exact h.found
  · exact hall (fun t => t.name = name) (hname.trans (h.name k)) h.name
  · exact hall (fun t => t.data = some i) hdata h.data
  · exact hall (fun t => t.concurrency < 2 ^ 32) (hcached ▸ hlt) h.cached
  · simpa using hlt

theorem TransientStatus.On.calls {s : TransientStatus ι} {name : String} {i : ℕ}
    (h : s.On name i) (cs : List (ι × Call)) :
    (cs.foldl TransientStatus.call s).On name i := by
  induction cs using List.reverseRecOn with
  | nil => exact h
  | append_singleton cs kc ih =>
      rw [List.foldl_append]
      exact (ih.call kc.1 kc.2).1

theorem TransientStatus.On.observe_eq {s : TransientStatus ι} {name : String} {i : ℕ}
    (h : s.On name i) (cs : List (ι × Call)) :
    s.observe name cs =
      some ((cs.foldl TransientStatus.call s).db.heap i).concurrency := by
  obtain ⟨t', hload, -, -, hc⟩ :=
    TransientStatusImpl.load_eq (t := { name := name }) (h.calls cs).found
  simp [TransientStatus.observe, TransientStatusImpl.fetch, hload, hc]

omit [DecidableEq ι] in
/-- A call moves a counter that is right to one that is right exactly when it does not
go through a handle with another value, and the new value fits. -/
theorem TransientStatus.On.counted_iff {s : TransientStatus ι} {name : String} {i : ℕ}
    (h : s.On name i) (k : ι) (c : Call)
    (hpos : 0 ≤ ((s.db.heap i).concurrency : ℤ) + c.delta) :
    ((s.handle k).counted (s.db.heap i).concurrency c : ℤ) =
        (s.db.heap i).concurrency + c.delta ↔
      (c = .starting ∨ c = .stopping →
        (s.handle k).concurrency = (s.db.heap i).concurrency) ∧
      ((s.db.heap i).concurrency : ℤ) + c.delta < 2 ^ 32 := by
  have hcached := h.cached k
  have hstored := h.stored
  generalize (s.db.heap i).concurrency = n at *
  cases c with
  | starting =>
      simp only [TransientStatusImpl.counted, Call.delta, true_or, true_implies] at hpos ⊢
      omega
  | stopping =>
      simp only [TransientStatusImpl.counted, Call.delta, or_true, true_implies] at hpos ⊢
      omega
  | sync =>
      simp only [TransientStatusImpl.counted, Call.delta, add_zero, reduceCtorEq, or_self,
        false_implies, true_and, true_iff]
      omega
  | fetch =>
      simp only [TransientStatusImpl.counted, Call.delta, add_zero, reduceCtorEq, or_self,
        false_implies, true_and, true_iff]
      omega

/-- The transient counter is right as long as every call goes through a handle that is
up to date, and it fits into a `uint32_t`. -/
theorem TransientStatus.On.counts_iff {s : TransientStatus ι} {name : String} {i : ℕ}
    (h : s.On name i) (h₀ : (s.db.heap i).concurrency = 0) {cs : List (ι × Call)}
    (hcs : Balanced cs) :
    Counts (s.observe name) cs ↔ s.UpToDate i cs ∧ Fits cs := by
  -- one more call, from a state in which the counter is right
  have hstep : ∀ pre k c, pre ++ [(k, c)] <+: cs →
      (((pre.foldl TransientStatus.call s).db.heap i).concurrency : ℤ) = outstanding pre →
      ((((pre ++ [(k, c)]).foldl TransientStatus.call s).db.heap i).concurrency =
          outstanding (pre ++ [(k, c)]) ↔
        (c = .starting ∨ c = .stopping →
          ((pre.foldl TransientStatus.call s).handle k).concurrency =
            ((pre.foldl TransientStatus.call s).db.heap i).concurrency) ∧
        outstanding (pre ++ [(k, c)]) < 2 ^ 32) := by
    intro pre k c hpre hright
    have hpos := hcs.outstanding_nonneg hpre
    have hon := h.calls pre
    rw [outstanding_snoc, ← hright] at hpos ⊢
    rw [List.foldl_append, List.foldl_cons, List.foldl_nil, (hon.call k c).2]
    exact hon.counted_iff k c hpos
  constructor
  · intro hcounts
    have hright : ∀ pre, pre <+: cs →
        (((pre.foldl TransientStatus.call s).db.heap i).concurrency : ℤ) =
          outstanding pre := by
      intro pre hpre
      obtain ⟨n, hn, hcount⟩ := hcounts pre hpre
      rw [h.observe_eq, Option.some.injEq] at hn
      rw [hn]
      exact hcount
    constructor
    · intro pre k c hpre
      have hbefore := hright pre ((List.prefix_append _ _).trans hpre)
      exact ((hstep pre k c hpre hbefore).1 (hright _ hpre)).1
    · intro pre hpre
      have hlt := (h.calls pre).stored
      rw [← hright pre hpre]
      exact_mod_cast hlt
  · rintro ⟨hup, hfits⟩ pre hpre
    refine ⟨_, h.observe_eq pre, ?_⟩
    change _ = outstanding pre
    induction pre using List.reverseRecOn with
    | nil => simp [h₀]
    | append_singleton pre kc ih =>
        have hbefore := ih ((List.prefix_append _ _).trans hpre)
        exact (hstep pre kc.1 kc.2 hpre hbefore).2
          ⟨hup pre kc.1 kc.2 hpre, hfits _ hpre⟩

end TransientRuns

attribute [local instance] neZero_two

/-- A status that was just created and a second handle that was fetched for it. -/
def createdStatus : TransientStatus (Fin 2) :=
  let (creator, d) := TransientStatusImpl.insert { name := "st-1", state := .pending } {}
  { db := d
    handle := fun k => if k = 0 then creator
      else (TransientStatusImpl.fetch "st-1" d).getD {} }

theorem createdStatus_on : createdStatus.On "st-1" 0 where
  found := rfl
  name := by decide
  data := by decide
  cached := by decide
  stored := by decide

end Transient

/-- From a counter at zero, and for any calls through any handles of which no initial
segment has more stops than starts, a newly fetched handle observes the number of starts
minus the number of stops after every call: over SQL exactly when this number fits into
a `uint32_t`, over a transient status exactly when moreover every `starting()` and
`stopping()` goes through a handle that has cached the value in the record. -/
theorem concurrency_counts_iff {ι : Type} [DecidableEq ι] (cs : List (ι × Call))
    (hcs : Balanced cs) :
    (∀ s : SqlStatus ι, s.row.concurrency = 0 → (Counts s.observe cs ↔ Fits cs)) ∧
    ∀ (s : Transient.TransientStatus ι) (name : String) (i : ℕ), s.On name i →
      (s.db.heap i).concurrency = 0 →
      (Counts (s.observe name) cs ↔ s.UpToDate i cs ∧ Fits cs) :=
  ⟨fun _ hs => SqlStatus.counts_iff hs hcs, fun _ _ _ h h₀ => h.counts_iff h₀ hcs⟩

/-- The first handle starts, and then the second one is loaded again and starts. -/
def takeTurns : List (Fin 2 × Call) :=
  [(0, .starting), (1, .sync), (1, .starting)]

theorem concurrency_counts_takeTurns :
    ∃ n, Transient.createdStatus.observe "st-1" takeTurns = some n ∧ n = 2 := by
  have hcs : Balanced takeTurns := by decide
  have hfits : Fits takeTurns := by decide
  have hup : Transient.createdStatus.UpToDate 0 takeTurns := by
    intro pre k c hpre
    rcases pre with _ | ⟨a, _ | ⟨b, _ | ⟨d, pre⟩⟩⟩ <;>
      simp only [takeTurns, List.nil_append, List.cons_append, List.cons_prefix_cons,
        Prod.mk.injEq] at hpre
    · obtain ⟨⟨rfl, rfl⟩, -⟩ := hpre
      exact fun _ => rfl
    · obtain ⟨rfl, ⟨rfl, rfl⟩, -⟩ := hpre
      exact fun h => absurd h (by decide)
    · obtain ⟨rfl, rfl, ⟨rfl, rfl⟩, -⟩ := hpre
      exact fun _ => rfl
    · simp at hpre
  obtain ⟨n, hn, hcount⟩ := (((concurrency_counts_iff takeTurns hcs).2 Transient.createdStatus
    "st-1" 0 Transient.createdStatus_on rfl).2 ⟨hup, hfits⟩) takeTurns (List.prefix_refl _)
  refine ⟨n, hn, ?_⟩
  have htwo : (n : ℤ) = 2 := hcount
  omega

/-- Two handles on one transient status start, and a third one observes one start. -/
theorem concurrency_not_counted :
    ¬ ∀ (s : Transient.TransientStatus (Fin 2)) (name : String) (i : ℕ)
        (cs : List (Fin 2 × Call)), s.On name i → (s.db.heap i).concurrency = 0 →
      Balanced cs → Counts (s.observe name) cs := by
  intro hall
  obtain ⟨n, hn, hcount⟩ := hall Transient.createdStatus "st-1" 0
    [(0, .starting), (1, .starting)] Transient.createdStatus_on rfl (by decide) _
    (List.prefix_refl _)
  have hone : Transient.createdStatus.observe "st-1" [(0, .starting), (1, .starting)] =
      some 1 := by rfl
  rw [hone, Option.some.injEq] at hn
  subst hn
  exact absurd hcount (by decide)

end Status

end Gearbox
