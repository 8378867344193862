import Gearbox.Status.Finalisation
import Gearbox.Status.Transient

/-!
# Two copies of one state

Both implementations of `state(s)` keep the state twice and check the transition
once per copy: the SQL implementation on its cache and then in the transaction, the
transient one on the shared record and then on its cache. The copy that is checked
first has already been changed when the second check refuses, so the call is
atomic exactly when the two checks agree or the first copy was in `s` already
(`state_atomic_iff`).
-/

namespace Gearbox

namespace Status

open Interleaving

/-- What `state(s)` promises of the SQL implementation: refused, it leaves the row's
state and the cached state as they were; accepted, both are `s`. An unloaded handle
has cached what it loads first. -/
def Handle.Atomic {X : Type} {Y : X → Type} (h : Handle) (s : State)
    (es : List (Event Row Y)) (b : Bool) (h' : Handle) : Prop :=
  (b = false → (∀ pre post, .update pre post ∈ es → post.state = pre.state) ∧
      h'.state = (h.seen es).state) ∧
    (b = true → (∃ pre post, .update pre post ∈ es ∧ post.state = s) ∧ h'.state = s)

/-- The transaction finds a row that agrees with the cache: the row's state admits
`s` whenever the cached one does, or `s` was cached already. -/
def Handle.Agrees {X : Type} {Y : X → Type} (h : Handle) (s : State)
    (es : List (Event Row Y)) : Prop :=
  validStateTransition (h.seen es).state s = true →
    (h.seen es).state = s ∨
      ∀ pre post, .update pre post ∈ es → validStateTransition pre.state s = true

section Sql

variable {X : Type} {Y : X → Type}

/-- All runs of `SQLStatusImpl::state`: the transition is refused on the cache or one
transaction follows. The lazy load in front may be one read. -/
theorem runs_setState {h h' : Handle} {s : State} {es : List (Event Row Y)} {b : Bool}
    (hrun : (h.setState s).Runs es (b, h')) :
    ∃ pre, (∀ a c, .update a c ∉ pre) ∧
      ((validStateTransition (h.seen es).state s = false ∧ es = pre ∧ b = false ∧
          h' = h.seen es) ∨
        (validStateTransition (h.seen es).state s = true ∧
          h' = { h.seen es with state := s } ∧
          ∃ r, es = pre ++ [.update r (h'.stateTx s r)] ∧
            b = validStateTransition r.state s)) := by
  unfold Handle.setState at hrun
  obtain ⟨h₁, pre, es', rfl, hload, hrest⟩ := Prog.runs_bind.1 hrun
  have hpre : (∀ a c, .update a c ∉ pre) ∧ h.seen (pre ++ es') = h₁ := by
    by_cases hl : (h.shouldLoad && !h.loaded) = true
    · rw [if_pos hl, runs_reallyLoad] at hload
      obtain ⟨r, rfl, rfl⟩ := hload
      have hloaded : h.loaded = false := by simpa using (Bool.and_eq_true_iff.1 hl).2
      exact ⟨by simp, by simp [Handle.seen, hloaded]⟩
    · rw [if_neg hl, Prog.pure_eq, Prog.runs_ret] at hload
      obtain ⟨rfl, rfl⟩ := hload
      refine ⟨by simp, ?_⟩
      -- without a load the first event is the transaction, if there is one
      have hfirst : ∀ r es'', es' ≠ .read r :: es'' := by
        rintro r es'' rfl
        cases hv : h₁.superState s with
        | mk valid h'' =>
            rw [hv] at hrest
            cases valid <;> simp [Prog.runs_ret, Prog.runs_update] at hrest
      unfold Handle.seen
      split
      · rename_i r es'' _ hes
        exact absurd hes (hfirst r es'')
      · rfl
  refine ⟨pre, hpre.1, ?_⟩
  rw [hpre.2]
  unfold Handle.superState at hrest
  by_cases hv : validStateTransition h₁.state s = true
  · simp only [hv, if_true, Bool.not_true, Bool.false_eq_true, if_false,
      Prog.transact_bind, Prog.pure_eq, Prog.runs_update, Prog.runs_ret,
      Prod.mk.injEq] at hrest
    obtain ⟨r, _, rfl, rfl, rfl, rfl⟩ := hrest
    exact .inr ⟨hv, rfl, r, rfl, rfl⟩
  · have hv' : validStateTransition h₁.state s = false := by simpa using hv
    simp only [hv', Bool.false_eq_true, if_false, Bool.not_false, if_true,
      Prog.pure_eq, Prog.runs_ret, Prod.mk.injEq] at hrest
    obtain ⟨rfl, rfl, rfl⟩ := hrest
    exact .inl ⟨hv', by simp, rfl, rfl⟩

theorem stateTx_state {h : Handle} {s : State} (hh : h.state = s) (r : Row) :
    (h.stateTx s r).state = if validStateTransition r.state s then s else r.state := by
  unfold Handle.stateTx
  split
  · exact hh
  · rfl

theorem atomic_setState_iff {h h' : Handle} {s : State} {es : List (Event Row Y)}
    {b : Bool} (hrun : (h.setState s).Runs es (b, h')) :
    h.Atomic s es b h' ↔ h.Agrees s es := by
  obtain ⟨pre, hpre, ⟨hv, rfl, rfl, rfl⟩ | ⟨hv, hh', r, hes, rfl⟩⟩ := runs_setState hrun
  · constructor
    · intro _ hv'
      rw [hv] at hv'
      cases hv'
    · intro _
      refine ⟨fun _ => ⟨fun a c hmem => absurd hmem (hpre a c), rfl⟩, fun hb => ?_⟩
      cases hb
  · have hstate : h'.state = s := by rw [hh']
    have hmem : .update r (h'.stateTx s r) ∈ es := by simp [hes]
    have honly : ∀ a c, .update a c ∈ es → a = r ∧ c = h'.stateTx s r := by
      intro a c hac
      rw [hes] at hac
      rcases List.mem_append.1 hac with hac | hac
      · exact absurd hac (hpre a c)
      · simpa using hac
    have htx := stateTx_state hstate r
    by_cases hr : validStateTransition r.state s = true
    · rw [if_pos hr] at htx
      constructor
      · intro _ _
        right
        intro a c hac
        rw [(honly a c hac).1]
        exact hr
      · intro _
        refine ⟨fun hb => ?_, fun _ => ⟨⟨r, _, hmem, htx⟩, hstate⟩⟩
        rw [hr] at hb
        cases hb
    · have hb : validStateTransition r.state s = false := by simpa using hr
      rw [if_neg hr] at htx
      constructor
      · intro hat _
        left
        rw [← (hat.1 hb).2, hstate]
      · intro hag
        rcases hag hv with hs | hall
        · refine ⟨fun _ => ⟨fun a c hac => ?_, hstate.trans hs.symm⟩, fun ht => ?_⟩
          · obtain ⟨rfl, rfl⟩ := honly a c hac
            exact htx
          · rw [hb] at ht
            cases ht
        · exact absurd (hall r _ hmem) hr

end Sql

namespace Transient

/-- What `state(s)` promises of the transient implementation. -/
def TransientStatusImpl.Atomic (t : TransientStatusImpl) (d : TransDB) (s : State)
    (b : Bool) (t' : TransientStatusImpl) (d' : TransDB) : Prop :=
  (b = false → t'.stored d' = t.stored d ∧ t'.state = t.state) ∧
    (b = true → (∀ x, t'.stored d' = some x → x = s) ∧ t'.state = s)

/-- The cache agrees with the record: it admits `s` whenever the record does, or the
record was in `s` already. -/
def TransientStatusImpl.Agrees (t : TransientStatusImpl) (d : TransDB) (s : State) :
    Prop :=
  ∀ x, t.stored d = some x → validStateTransition x s = true →
    x = s ∨ validStateTransition t.state s = true

theorem atomic_setState_iff (t : TransientStatusImpl) (d : TransDB) (s : State) :
    t.Atomic d s (t.setState d s).1 (t.setState d s).2.1 (t.setState d s).2.2 ↔
      t.Agrees d s := by
  unfold TransientStatusImpl.Atomic TransientStatusImpl.Agrees
    TransientStatusImpl.setState TransientStatusImpl.stored
  cases hd : t.data with
  | none =>
      unfold TransientStatusImpl.superState
      by_cases hv : validStateTransition t.state s = true
      · simp [hv, hd]
      · simp [hv, hd]
  | some i =>
      by_cases hx : validStateTransition (d.heap i).state s = true
      · unfold TransientStatusImpl.superState
        by_cases hv : validStateTransition t.state s = true
        · simp [hv, hx, hd]
        · have hcomm : s = (d.heap i).state ↔ (d.heap i).state = s := eq_comm
          simpa [hv, hx, hd] using hcomm
      · simp [hx, hd]

end Transient

/-- `state(s)` is atomic, through any handle of either implementation and whatever
others do to the status meanwhile, exactly when the two copies agree. -/
theorem state_atomic_iff (s : State) :
    (∀ (X : Type) (Y : X → Type) (h h' : Handle) (es : List (Event Row Y)) (b : Bool),
      (h.setState s).Runs es (b, h') → (h.Atomic s es b h' ↔ h.Agrees s es)) ∧
    ∀ (t : Transient.TransientStatusImpl) (d : Transient.TransDB),
      t.Atomic d s (t.setState d s).1 (t.setState d s).2.1 (t.setState d s).2.2 ↔
        t.Agrees d s :=
  ⟨fun _ _ _ _ _ _ hrun => atomic_setState_iff hrun,
    fun t d => Transient.atomic_setState_iff t d s⟩

/-- A handle that has loaded a pending row and starts it. -/
theorem state_atomic_running :
    ∃ h', Handle.Atomic (X := Empty) (Y := fun _ => Unit)
      { state := .pending, loaded := true, shouldLoad := true } .running
      [.update freshDatabase.store { freshDatabase.store with state := .running }]
      true h' := by
  refine ⟨{ state := .running, loaded := true, shouldLoad := true },
    ((state_atomic_iff .running).1 Empty (fun _ => Unit) _ _ _ _ ?_).2 ?_⟩
  · exact .cons (.update _ _ freshDatabase.store) (.refl _)
  · intro _
    right
    intro pre post hmem
    simp only [List.mem_singleton, Event.update.injEq] at hmem
    rw [hmem.1]
    rfl

namespace Transient

/-- A pending transient status, and a second handle that is loaded for it before the
first one starts it. -/
def startedStatus : Option (TransientStatusImpl × TransDB) :=
  let (first, d) := TransientStatusImpl.insert { name := "st-1", state := .pending } {}
  match TransientStatusImpl.load { name := "st-1" } d with
  | none => none
  | some second => some (second, (first.setState d .running).2.2)

end Transient

attribute [local instance] neZero_two

/-- Neither implementation is atomic: a stale SQL handle that is refused by the
transaction keeps the refused state, and a stale transient handle that is refused by
its cache has changed the record. -/
theorem state_not_atomic :
    (¬ ∀ (tr : List (Database.Label (Fin 2))) (c c' : Database (Fin 2)) (i : Fin 2)
        (s : State) (hs : s ≠ .unknown) (l l' : Handle)
        (es : List (Event Row (X := Empty) fun _ => Unit)) (b : Bool),
      Run run freshDatabase tr c →
      Step run c (.finish i (.state s hs) l es (.answered b) l') c' →
      l.Atomic s es b l') ∧
    ∃ t d, Transient.startedStatus = some (t, d) ∧
      ¬ t.Atomic d .stopping (t.setState d .stopping).1 (t.setState d .stopping).2.1
        (t.setState d .stopping).2.2 := by
  constructor
  · intro hall
    have hrun : (scheduleAll run freshDatabase (staleCancel.take 9)).map
        (fun p => p.2.client 0) =
      some (.busy (.state .cancelled (by decide))
        { state := .pending, loaded := true, shouldLoad := true }
        [.update { freshDatabase.store with state := .running }
          { freshDatabase.store with state := .running }]
        (.ret (.answered false, { state := .cancelled, loaded := true,
                                  shouldLoad := true }))) := by rfl
    obtain ⟨tr, c, hr, hc⟩ := exists_run_of_scheduleAll hrun
    have hat := hall tr c _ 0 .cancelled _ _ _ _ _ hr (.finish c 0 _ _ _ _ _ hc)
    cases (hat.1 rfl).2
  · refine ⟨_, _, rfl, ?_⟩
    intro hat
    cases (hat.1 rfl).1

end Status

end Gearbox
