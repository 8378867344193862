import Gearbox.Status.History

/-!
# Finalising a status

`success`, `fail` and `cancel` all go through `SQLStatusImpl::end`, which loads
the row, checks the transition on the cached state, and checks it again inside the
transaction. A transaction that is refused there is rolled back and `end` returns
normally, so a finalisation that returns has happened only if the row, as its
transaction found it, allowed it (`finalisation_kept_iff`).

The guard that keeps the code of a finished status tests the progress that the
handle loaded, not the one the transaction meets. A code is therefore kept by
every run in which a finalisation's transaction meets a finished row only if its
own load had already seen it finished (`code_kept_of_synchronised`).
-/

namespace Gearbox

namespace Status

open Interleaving

/-- The state that a finalisation asks for. -/
def Op.requested : Op → Option State
  | .success => some .completed
  | .fail _ => some .completed
  | .cancel => some .cancelled
  | _ => none

/-- The row at the end of a call: as its last transaction left it or its last read
found it, and the current row if the call never touched it. -/
def rowAtEnd {X : Type} {Y : X → Type} (es : List (Event Row Y)) (now : Row) : Row :=
  match es.getLast? with
  | some (.update _ post) => post
  | some (.read r) => r
  | _ => now

/-- What a finalisation promises: when it returns, the requested state has been
persisted; when it throws, it has not changed the row. -/
def Kept {X : Type} {Y : X → Type} (s : State) (es : List (Event Row Y))
    (r : Outcome) (now : Row) : Prop :=
  (r = .returned → (rowAtEnd es now).state = s) ∧
    ∀ e, r = .threw e → ∀ pre post, .update pre post ∈ es → post = pre

/-- The handle after the lazy load with which `cancel` begins. -/
def Handle.seen {X : Type} {Y : X → Type} (h : Handle) (es : List (Event Row Y)) :
    Handle :=
  match h.loaded, es with
  | false, .read r :: _ => h.assign r
  | _, _ => h

/-- The row that this load finds, or the current one if the handle is loaded. -/
def Handle.rowSeen {X : Type} {Y : X → Type} (h : Handle)
    (es : List (Event Row Y)) (now : Row) : Row :=
  match h.loaded, es with
  | false, .read r :: _ => r
  | _, _ => now

/-- The row lets the finalisation through: its transaction finds a state from which
`s` may be reached, and a handle that believes the status is cancelled is right. -/
def Permitted {X : Type} {Y : X → Type} (s : State) (h : Handle)
    (es : List (Event Row Y)) (now : Row) : Prop :=
  (∀ pre post, .update pre post ∈ es → validStateTransition pre.state s = true) ∧
    (s = .cancelled → (h.seen es).state = .cancelled →
      (h.rowSeen es now).state = .cancelled)

section Runs

variable {X : Type} {Y : X → Type}

theorem runs_reallyLoad {h h' : Handle} {es : List (Event Row Y)} :
    (h.reallyLoad).Runs es h' ↔ ∃ r, es = [.read r] ∧ h' = h.assign r := by
  simp only [Handle.reallyLoad, Prog.select_bind, Prog.pure_eq, Prog.runs_read,
    Prog.runs_ret]
  constructor
  · rintro ⟨r, _, rfl, rfl, rfl⟩
    exact ⟨r, rfl, rfl⟩
  · rintro ⟨r, rfl, rfl⟩
    exact ⟨r, [], rfl, rfl, rfl⟩

/-- The handle after the load at the beginning of `end`. -/
def Handle.reload (h : Handle) (r : Row) : Handle :=
  if h.loaded then (h.superState .unknown).2.assign r else h.assign r

theorem runs_reload {h h' : Handle} {es : List (Event Row Y)} :
    Prog.Runs (if !h.loaded then h.reallyLoad else h.sync) es h' ↔
      ∃ r, es = [.read r] ∧ h' = h.reload r := by
  unfold Handle.reload Handle.sync
  cases h.loaded with
  | false => simpa using runs_reallyLoad
  | true => simpa using runs_reallyLoad

/-- All runs of `SQLStatusImpl::end`: one read, and then either the transition is
refused on the cache or one transaction follows. -/
theorem runs_endWith {h h' : Handle} {code : ℤ} {s : State}
    {es : List (Event Row Y)} {x : Except Thrown Unit} :
    (h.endWith code s).Runs es (x, h') ↔
      ∃ r, (((h.reload r).superState s).1 = false ∧ es = [.read r] ∧
          x = .error (.internalServerError ("Invalid status state change from "
            ++ state2str ((h.reload r).superState s).2.state ++ " to "
            ++ state2str s)) ∧
          h' = ((h.reload r).superState s).2) ∨
        (((h.reload r).superState s).1 = true ∧ x = .ok () ∧
          h' = ((h.reload r).superState s).2.complete code ∧
          ∃ r', es = [.read r, .update r' (h'.endTx s r')]) := by
  unfold Handle.endWith
  simp only [Prog.runs_bind, runs_reload]
  constructor
  · rintro ⟨_, _, es', rfl, ⟨r, rfl, rfl⟩, hrun⟩
    refine ⟨r, ?_⟩
    cases hv : ((h.reload r).superState s).1 with
    | false =>
        simp only [hv, Bool.not_false, if_true, Prog.pure_eq, Prog.runs_ret,
          Prod.mk.injEq] at hrun
        obtain ⟨rfl, rfl, rfl⟩ := hrun
        exact .inl ⟨rfl, rfl, rfl, rfl⟩
    | true =>
        simp only [hv, Bool.not_true, Bool.false_eq_true, if_false, Prog.transact_bind,
          Prog.pure_eq, Prog.runs_update, Prog.runs_ret, Prod.mk.injEq] at hrun
        obtain ⟨r', _, rfl, rfl, rfl, rfl⟩ := hrun
        exact .inr ⟨rfl, rfl, rfl, r', rfl⟩
  · rintro ⟨r, ⟨hv, rfl, rfl, rfl⟩ | ⟨hv, rfl, rfl, r', rfl⟩⟩
    · refine ⟨_, [.read r], [], rfl, ⟨r, rfl, rfl⟩, ?_⟩
      simp [hv, Prog.runs_ret]
    · refine ⟨_, [.read r], [.update r' _], rfl, ⟨r, rfl, rfl⟩, ?_⟩
      simp [hv, Prog.runs_update, Prog.runs_ret]

/-- The row that the transaction of `end` leaves has the requested state exactly
when the transition was valid. -/
theorem endTx_state_iff {h : Handle} {s : State} (hh : h.state = s) (r : Row) :
    (h.endTx s r).state = s ↔ validStateTransition r.state s = true := by
  unfold Handle.endTx
  split
  · rename_i hv
    simp [hh, hv]
  · rename_i hv
    constructor
    · intro hs
      rw [hs] at hv
      exact absurd (validStateTransition_self s) hv
    · intro hv'
      exact absurd hv' hv

/-- `end` keeps the promise of a finalisation exactly when its transaction, if it
gets that far, finds a state from which `s` may be reached. -/
theorem kept_endWith_iff {h h' : Handle} {code : ℤ} {s : State}
    {es : List (Event Row Y)} {x : Except Thrown Unit} (now : Row)
    (pre : List (Event Row Y)) (hpre : ∀ a b, .update a b ∉ pre)
    (hrun : (h.endWith code s).Runs es (x, h')) :
    Kept s (pre ++ es) (.ofExcept x) now ↔
      ∀ a b, .update a b ∈ pre ++ es → validStateTransition a.state s = true := by
  obtain ⟨r, ⟨_, rfl, rfl, _⟩ | ⟨hv, rfl, rfl, r', rfl⟩⟩ := runs_endWith.1 hrun
  · have hno : ∀ a b, (.update a b : Event Row Y) ∉ pre ++ [.read r] := by
      intro a b hmem
      rcases List.mem_append.1 hmem with hmem | hmem
      · exact hpre a b hmem
      · simp at hmem
    constructor
    · intro _ a b hmem
      exact absurd hmem (hno a b)
    · intro _
      refine ⟨fun hret => ?_, fun e _ a b hmem => absurd hmem (hno a b)⟩
      simp [Outcome.ofExcept] at hret
  · have hstate : (((h.reload r).superState s).2.complete code).state = s := by
      rw [complete_state, superState_state hv]
    have hend : rowAtEnd (pre ++ [.read r, .update r'
        ((((h.reload r).superState s).2.complete code).endTx s r')]) now =
        (((h.reload r).superState s).2.complete code).endTx s r' := by
      simp [rowAtEnd]
    constructor
    · intro hk a b hmem
      rcases List.mem_append.1 hmem with hmem | hmem
      · exact absurd hmem (hpre a b)
      · simp only [List.mem_cons, reduceCtorEq, List.not_mem_nil, or_false, false_or,
          Event.update.injEq] at hmem
        obtain ⟨rfl, rfl⟩ := hmem
        have := hk.1 rfl
        rw [hend] at this
        exact (endTx_state_iff hstate a).1 this
    · intro hv'
      refine ⟨fun _ => ?_, fun e he => ?_⟩
      · rw [hend]
        have hmem : (.update r' ((((h.reload r).superState s).2.complete code).endTx
            s r') : Event Row Y) ∈ pre ++ [.read r, .update r'
              ((((h.reload r).superState s).2.complete code).endTx s r')] := by simp
        exact (endTx_state_iff hstate r').2 (hv' r' _ hmem)
      · simp [Outcome.ofExcept] at he

/-- All runs of `cancel`: it returns at once if the handle says `cancelled`, and is
`end` otherwise. The lazy load in front may be one read. -/
theorem runs_cancel {h h' : Handle} {es : List (Event Row Y)}
    {x : Except Thrown Unit} (hrun : h.cancel.Runs es (x, h')) :
    ∃ pre es', es = pre ++ es' ∧ ((h.loaded = true ∧ pre = []) ∨
        (h.loaded = false ∧ ∃ r, pre = [.read r])) ∧
      (((h.seen es).state = .cancelled ∧ es' = [] ∧ x = .ok ()) ∨
        ((h.seen es).state ≠ .cancelled ∧
          ∃ code, ((h.seen es).endWith code .cancelled).Runs es' (x, h'))) := by
  unfold Handle.cancel Handle.getState Handle.lazyLoad at hrun
  cases hl : h.loaded with
  | true =>
      refine ⟨[], es, rfl, .inl ⟨rfl, rfl⟩, ?_⟩
      have hseen : h.seen es = h := by simp [Handle.seen, hl]
      rw [hseen]
      simp only [hl, Bool.not_true, Bool.false_eq_true, if_false, Prog.pure_eq,
        Prog.ret_bind, Handle.getCode, Handle.lazyLoad] at hrun
      by_cases hc : h.state = .cancelled
      · simp only [hc, ne_eq, not_true, if_false, Prog.runs_ret, Prod.mk.injEq] at hrun
        exact .inl ⟨hc, hrun.1, hrun.2.1⟩
      · simp only [ne_eq, hc, not_false_eq_true, if_true] at hrun
        exact .inr ⟨hc, _, hrun⟩
  | false =>
      simp only [hl, Bool.not_false, if_true, Handle.reallyLoad, Prog.select_bind,
        Prog.read_bind, Prog.pure_eq, Prog.ret_bind, Prog.runs_read] at hrun
      obtain ⟨r, es', rfl, hrun⟩ := hrun
      refine ⟨[.read r], es', rfl, .inr ⟨rfl, r, rfl⟩, ?_⟩
      have hseen : h.seen (.read r :: es') = h.assign r := by simp [Handle.seen, hl]
      have hloaded : (h.assign r).loaded = true := rfl
      rw [hseen]
      simp only [Handle.getCode, Handle.lazyLoad, hloaded, Bool.not_true,
        Bool.false_eq_true, if_false, Prog.pure_eq, Prog.ret_bind] at hrun
      by_cases hc : (h.assign r).state = .cancelled
      · simp only [hc, ne_eq, not_true, if_false, Prog.runs_ret, Prod.mk.injEq] at hrun
        exact .inl ⟨hc, hrun.1, hrun.2.1⟩
      · simp only [ne_eq, hc, not_false_eq_true, if_true] at hrun
        exact .inr ⟨hc, _, hrun⟩

theorem kept_cancel_iff {h h' : Handle} {es : List (Event Row Y)}
    {x : Except Thrown Unit} (now : Row) (hrun : h.cancel.Runs es (x, h')) :
    Kept .cancelled es (.ofExcept x) now ↔ Permitted .cancelled h es now := by
  obtain ⟨pre, es', rfl, hload, ⟨hc, rfl, rfl⟩ | ⟨hc, code, hrun'⟩⟩ := runs_cancel hrun
  · have hrow : rowAtEnd (pre ++ []) now = h.rowSeen (pre ++ []) now := by
      rcases hload with ⟨hl, rfl⟩ | ⟨hl, r, rfl⟩
      · simp [rowAtEnd, Handle.rowSeen]
      · simp [rowAtEnd, Handle.rowSeen, hl]
    have hno : ∀ a b, (.update a b : Event Row Y) ∉ pre ++ [] := by
      rcases hload with ⟨_, rfl⟩ | ⟨_, r, rfl⟩ <;> simp
    constructor
    · intro hk
      refine ⟨fun a b hmem => absurd hmem (hno a b), fun _ _ => ?_⟩
      rw [← hrow]
      exact hk.1 rfl
    · intro hp
      refine ⟨fun _ => ?_, fun e he => by simp [Outcome.ofExcept] at he⟩
      rw [hrow]
      exact hp.2 rfl hc
  · have hpre : ∀ a b, (.update a b : Event Row Y) ∉ pre := by
      rcases hload with ⟨_, rfl⟩ | ⟨_, r, rfl⟩ <;> simp
    rw [kept_endWith_iff now pre hpre hrun']
    constructor
    · intro hv
      exact ⟨hv, fun _ hc' => absurd hc' hc⟩
    · intro hp
      exact hp.1

end Runs

/-- Whoever else works on the row, a finalisation that ends keeps its promise
exactly when the row permitted it. -/
theorem finalisation_kept_iff {ι : Type} [DecidableEq ι] {c₀ c c' : Database ι}
    {tr : List (Database.Label ι)} {i : ι} {op : Op} {l l' : Handle}
    {es : List (Event Row (X := Empty) fun _ => Unit)} {r : Outcome} {s : State}
    (h₀ : c₀.AtRest) (h : Run run c₀ tr c)
    (hs : Step run c (.finish i op l es r l') c') (hop : op.requested = some s) :
    Kept s es r c.store ↔ Permitted s l es c.store := by
  have hmem : .finish i op l es r l' ∈ tr ++ [.finish i op l es r l'] := by simp
  have hrun := (h.snoc hs).finished h₀ hmem
  have hend : ∀ code, s = .completed → (l.endWith code s >>= fun x =>
        Prog.ret (Outcome.ofExcept x.1, x.2)).Runs es (r, l') →
      (Kept s es r c.store ↔ Permitted s l es c.store) := by
    intro code hcomp hrun
    obtain ⟨⟨x, h'⟩, es₁, es₂, rfl, hrun, hret⟩ := Prog.runs_bind.1 hrun
    simp only [Prog.runs_ret, Prod.mk.injEq] at hret
    obtain ⟨rfl, rfl, rfl⟩ := hret
    have hk := kept_endWith_iff c.store [] (by simp) hrun
    simp only [List.nil_append, List.append_nil] at hk ⊢
    rw [hk, Permitted]
    constructor
    · intro hv
      exact ⟨hv, fun hcanc => by rw [hcomp] at hcanc; cases hcanc⟩
    · intro hp
      exact hp.1
  cases op with
  | success =>
      cases hop
      exact hend 0 rfl hrun
  | fail code =>
      cases hop
      exact hend code rfl hrun
  | cancel =>
      cases hop
      obtain ⟨⟨x, h'⟩, es₁, es₂, rfl, hrun, hret⟩ := Prog.runs_bind.1 hrun
      simp only [Prog.pure_eq, Prog.runs_ret, Prod.mk.injEq] at hret
      obtain ⟨rfl, rfl, rfl⟩ := hret
      simpa using kept_cancel_iff c.store hrun
  | state s' hs' => cases hop
  | checkpoint => cases hop
  | sync => cases hop

attribute [local instance] neZero_two

/-- The row of a running job and two handles that have been fetched for it. -/
def runningDatabase : Database (Fin 2) where
  store := { state := .running, progress := 0, code := -1, ytime := -1,
             failures := 0, concurrency := 1 }
  client _ := .idle { shouldLoad := true }

theorem finalisation_kept_alone :
    ∃ tr c c' es l', Run run runningDatabase tr c ∧
      Step run c (.finish 0 (.fail 500) { shouldLoad := true } es .returned l') c' ∧
      Kept .completed es .returned c.store := by
  have hrun : (scheduleAll run runningDatabase
      [.call 0 (.fail 500), .go 0, .go 0]).map (fun p => p.2.client 0) =
    some (.busy (.fail 500) { shouldLoad := true }
      [.read runningDatabase.store, .update runningDatabase.store
        { runningDatabase.store with state := .completed, progress := 100, code := 500 }]
      (.ret (.returned, { state := .completed, progress := 100, code := 500,
                          loaded := true, shouldLoad := true }))) := by rfl
  obtain ⟨tr, c, hr, hc⟩ := exists_run_of_scheduleAll hrun
  have hstep : Step run c _ _ := .finish c 0 _ _ _ _ _ hc
  refine ⟨tr, c, _, _, _, hr, hstep, ?_⟩
  refine (finalisation_kept_iff (fun i => ⟨_, rfl⟩) hr hstep rfl).2
    ⟨?_, fun hcanc => by cases hcanc⟩
  intro pre post hmem
  simp only [List.mem_cons, reduceCtorEq, List.not_mem_nil, or_false, false_or,
    Event.update.injEq] at hmem
  rw [hmem.1]
  rfl

/-- A job's `fail` has loaded the running row when another handle stops the status;
its transaction is then refused, and it returns all the same. -/
def failOvertaken : List (Move (Fin 2) (X := Empty) (fun _ => Unit) Op) :=
  [.call 0 (.fail 500), .go 0,
   .call 1 (.state .stopping (by decide)), .go 1, .go 1, .finish 1,
   .call 1 (.state .stopped (by decide)), .go 1, .finish 1,
   .go 0]

theorem finalisation_not_kept :
    ¬ ∀ (tr : List (Database.Label (Fin 2))) (c c' : Database (Fin 2)) (i : Fin 2)
        (op : Op) (l l' : Handle) (es : List (Event Row (X := Empty) fun _ => Unit))
        (r : Outcome) (s : State), Run run runningDatabase tr c →
      Step run c (.finish i op l es r l') c' → op.requested = some s →
      Kept s es r c.store := by
  intro hall
  have hrun : (scheduleAll run runningDatabase failOvertaken).map
      (fun p => p.2.client 0) =
    some (.busy (.fail 500) { shouldLoad := true }
      [.read runningDatabase.store,
        .update { runningDatabase.store with state := .stopped }
          { runningDatabase.store with state := .stopped }]
      (.ret (.returned, { state := .completed, progress := 100, code := 500,
                          loaded := true, shouldLoad := true }))) := by rfl
  obtain ⟨tr, c, hr, hc⟩ := exists_run_of_scheduleAll hrun
  have hkept := (hall tr c _ 0 _ _ _ _ _ .completed hr (.finish c 0 _ _ _ _ _ hc) rfl).1
    rfl
  cases hkept

/-!
## The first finalisation and its code
-/

/-- The calls that finalise a status. -/
inductive Finalisation where
  | success
  | fail (code : ℤ)
  | cancel
  deriving DecidableEq

def Finalisation.toOp : Finalisation → Op
  | .success => .success
  | .fail code => .fail code
  | .cancel => .cancel

def Finalisation.run (f : Finalisation) (h : Handle) :
    Prog Row (X := Empty) (fun _ => Unit) (Outcome × Handle) :=
  Status.run f.toOp h

/-- One row and any number of handles that finalise it. -/
abbrev Finalisations (ι : Type) :=
  Config ι Row (X := Empty) (fun _ => Unit) Handle Finalisation Outcome

abbrev Finalisations.Label (ι : Type) :=
  Interleaving.Label ι Row (X := Empty) (fun _ => Unit) Handle Finalisation Outcome

/-- The ghost state is the row that the handle loaded last. A transaction leaves
the row alone, or, if the handle loaded a finished row, writes back the code and
the progress that it loaded. -/
def loadMonitor {X : Type} (Y : X → Type) : Monitor Row Y (Option Row) where
  next
    | _, .read r => some r
    | g, _ => g
  rely _ _ := True
  guar
    | g, .update pre post => ∃ r, g = some r ∧ (post = pre ∨
        (100 ≤ r.progress → post.progress = r.progress ∧ post.code = r.code))
    | _, _ => True

theorem superState_fields (h : Handle) (s : State) :
    (h.superState s).2.progress = h.progress ∧ (h.superState s).2.code = h.code := by
  unfold Handle.superState
  split <;> exact ⟨rfl, rfl⟩

theorem assign_fields (h : Handle) (r : Row) :
    (h.assign r).progress = r.progress ∧ (h.assign r).code = r.code := by
  unfold Handle.assign
  exact superState_fields { h with progress := r.progress, code := r.code,
                                   ytime := r.ytime } r.state

theorem endTx_of_finished {h : Handle} {r : Row} (code : ℤ) (s : State) (pre : Row)
    (hp : h.progress = r.progress) (hc : h.code = r.code) :
    (h.complete code).endTx s pre = pre ∨ (100 ≤ r.progress →
      ((h.complete code).endTx s pre).progress = r.progress ∧
        ((h.complete code).endTx s pre).code = r.code) := by
  unfold Handle.endTx
  split
  · refine .inr fun hfin => ?_
    have hnot : ¬ h.progress < 100 := by omega
    rw [Handle.complete, if_neg hnot]
    exact ⟨hp, hc⟩
  · exact .inl rfl

section Load

variable {X : Type} {Y : X → Type}

theorem wp_endWith_load (h : Handle) (code : ℤ) (s : State) (g : Option Row) :
    (h.endWith (Y := Y) code s).wp (loadMonitor Y) (fun _ _ => True) g := by
  have hload : Prog.wp (loadMonitor Y) (if !h.loaded then h.reallyLoad else h.sync)
      (fun g h' => ∃ r, g = some r ∧ h'.progress = r.progress ∧ h'.code = r.code)
      g := by
    split
    · exact fun r _ => ⟨trivial, r, rfl, assign_fields h r⟩
    · exact fun r _ => ⟨trivial, r, rfl, assign_fields _ r⟩
  refine Prog.wp_bind _ (Prog.wp_mono _ ?_ hload)
  rintro g h' ⟨r, rfl, hp, hc⟩
  have hfields := superState_fields h' s
  cases hv : h'.superState s with
  | mk valid h'' =>
      rw [hv] at hfields
      cases valid with
      | false => trivial
      | true =>
          intro pre _
          refine ⟨⟨r, rfl, ?_⟩, trivial⟩
          exact endTx_of_finished code s pre (hfields.1.trans hp) (hfields.2.trans hc)

theorem wp_lazyLoad_load (h : Handle) (g : Option Row) :
    (h.lazyLoad (Y := Y)).wp (loadMonitor Y) (fun _ _ => True) g := by
  unfold Handle.lazyLoad
  split
  · exact fun r _ => ⟨trivial, trivial⟩
  · trivial

theorem wp_cancel_load (h : Handle) (g : Option Row) :
    (h.cancel (Y := Y)).wp (loadMonitor Y) (fun _ _ => True) g := by
  refine Prog.wp_bind _ (Prog.wp_bind _ (Prog.wp_mono _ ?_ (wp_lazyLoad_load h g)))
  intro g h' _
  simp only [Prog.wp, Prog.pure_eq]
  split
  · refine Prog.wp_bind _ (Prog.wp_bind _
      (Prog.wp_mono _ ?_ (wp_lazyLoad_load h' g)))
    intro g h'' _
    exact wp_endWith_load h'' _ _ g
  · trivial

end Load

theorem wp_finalisation_load (f : Finalisation) (h : Handle) (g : Option Row) :
    (f.run h).wp (loadMonitor _) (fun _ _ => True) g := by
  cases f with
  | success => exact Prog.wp_bind _ (wp_endWith_load h 0 _ g)
  | fail code => exact Prog.wp_bind _ (wp_endWith_load h code _ g)
  | cancel => exact Prog.wp_bind _ (wp_cancel_load h g)

section FirstCode

variable {ι : Type}

/-- Whoever has loaded a finished row has loaded the code of the current one. -/
def LoadsCurrent (s : Row) (γ : ι → Option Row) : Prop :=
  ∀ i r, γ i = some r → r.progress = 100 → s.progress = 100 ∧ s.code = r.code

/-- A synchronised transaction on a finished row keeps its progress and its code. -/
theorem code_kept_of_guar {s post : Row} {γ : ι → Option Row} {i : ι}
    (hI : LoadsCurrent s γ)
    (hsync : s.progress = 100 → ∀ r, γ i = some r → r.progress = 100)
    (hg : (loadMonitor (X := Empty) fun _ => Unit).guar (γ i) (.update s post))
    (hs : s.progress = 100) : post.progress = 100 ∧ post.code = s.code := by
  obtain ⟨r, hr, rfl | hwrite⟩ := hg
  · exact ⟨hs, rfl⟩
  · have hfin := hsync hs r hr
    have hcode := (hI i r hr hfin).2
    have hw := hwrite (by omega)
    exact ⟨hw.1.trans hfin, by rw [hw.2, hcode]⟩

variable [DecidableEq ι]

/-- The row that a handle loaded last. -/
def lastLoad (evs : List (ι × Event Row (X := Empty) fun _ => Unit)) (i : ι) :
    Option Row :=
  ghost (loadMonitor _) (fun _ => none) evs i

/-- A transaction that meets a finished row belongs to a finalisation whose own load
had seen it finished: nobody finished the row in between. -/
def Synchronised (evs : List (ι × Event Row (X := Empty) fun _ => Unit)) (i : ι) :
    Event Row (X := Empty) (fun _ => Unit) → Prop
  | .update pre _ => pre.progress = 100 →
      ∀ r, lastLoad evs i = some r → r.progress = 100
  | _ => True

theorem relyGuarantee_load :
    RelyGuarantee (ι := ι) Finalisation.run (loadMonitor _) (fun _ _ => True)
      (fun _ _ _ _ => True) (fun evs s γ => γ = lastLoad evs ∧ LoadsCurrent s γ) Synchronised where
  body f l g _ := wp_finalisation_load f l g
  ready _ _ _ _ _ := trivial
  rely _ _ _ _ _ := trivial
  step evs s γ i e hI hat hC hg := by
    obtain ⟨rfl, hI⟩ := hI
    refine ⟨(ghost_snoc _ _ _ _ _).symm, ?_⟩
    cases e with
    | read r =>
        cases hat
        intro j r hj hfin
        by_cases hij : j = i
        · subst hij
          rw [Function.update_self] at hj
          cases hj
          exact ⟨hfin, rfl⟩
        · rw [Function.update_of_ne hij] at hj
          exact hI j r hj hfin
    | update pre post =>
        have hpre : pre = s := hat
        subst hpre
        have hnext : (loadMonitor fun _ : Empty => Unit).next (lastLoad evs i)
            (.update pre post) = lastLoad evs i := rfl
        rw [hnext, Function.update_eq_self]
        intro j r hj hfin
        obtain ⟨hp, hc⟩ := hI j r hj hfin
        have hkept := code_kept_of_guar hI hC hg hp
        exact ⟨hkept.1, hkept.2.trans hc⟩
    | call x y => exact x.elim

/-- In every interleaving of finalisations in which each transaction is synchronised
with the row it meets, a row that is finished keeps its code from then on. -/
theorem code_kept_of_synchronised {c₀ c c' : Finalisations ι}
    {tr tr' : List (Finalisations.Label ι)} (h₀ : c₀.AtRest)
    (h : Run Finalisation.run c₀ tr c) (h' : Run Finalisation.run c tr' c')
    (hC : Meets Synchronised (events (tr ++ tr'))) (hfin : c.store.progress = 100) :
    c'.store.progress = 100 ∧ c'.store.code = c.store.code := by
  induction h' with
  | nil => exact ⟨hfin, rfl⟩
  | @snoc tr' c₁ c₂ l hr hs ih =>
      rw [← List.append_assoc] at hC
      have hC₁ : Meets Synchronised (events (tr ++ tr')) := by
        rw [events_append] at hC
        exact hC.append_left
      obtain ⟨hp, hc⟩ := ih hC₁
      have hinit : ∀ i, ∃ l, c₀.client i = .idle l ∧ True := by
        simpa [Config.AtRest] using h₀
      have hI₀ : (fun _ => none) = lastLoad ([] : List (ι × _)) ∧
          LoadsCurrent c₀.store (fun _ : ι => none) :=
        ⟨rfl, fun i r hr => by cases hr⟩
      have hguar := (Run.relyGuarantee relyGuarantee_load hI₀ hinit
        ((h.append hr).snoc hs) hC).2.2
      rcases hs.store with ⟨i, e, rfl, hat, hafter⟩ | hsame
      · have hsplit : events (tr ++ tr' ++ [.event i e]) =
            events (tr ++ tr') ++ (i, e) :: [] := by rw [events_append]; rfl
        obtain ⟨hg, s, hats, -, hI⟩ := hguar _ i e [] hsplit
        have hsync := hC _ i e [] hsplit
        rw [hafter]
        cases e with
        | read r => exact ⟨hp, hc⟩
        | update pre post =>
            cases hat
            cases hats
            have hkept := code_kept_of_guar hI hsync hg hp
            exact ⟨hkept.1, hkept.2.trans hc⟩
        | call x y => exact x.elim
      · rw [hsame]
        exact ⟨hp, hc⟩

end FirstCode

/-- `runningDatabase` with calls that finalise only. -/
def runningFinalisations : Finalisations (Fin 2) where
  store := runningDatabase.store
  client _ := .idle { shouldLoad := true }

/-- The row after `success` has written it. -/
def succeededRow : Row :=
  { runningDatabase.store with state := .completed, progress := 100, code := 0 }

/-- A job that has succeeded is failed by another handle afterwards. -/
theorem code_kept_of_synchronised_late :
    ∃ tr tr' c c', Run Finalisation.run runningFinalisations tr c ∧
      Run Finalisation.run c tr' c' ∧ c.store = succeededRow ∧
      events tr' = [(1, .read succeededRow), (1, .update succeededRow succeededRow)] ∧
      c'.store.progress = 100 ∧ c'.store.code = c.store.code := by
  have hrun : ((scheduleAll Finalisation.run runningFinalisations
      [.call 0 .success, .go 0, .go 0, .finish 0]).bind fun p =>
        (scheduleAll Finalisation.run p.2 [.call 1 (.fail 500), .go 1, .go 1]).map
          fun q => (p.2.store, events p.1, events q.1)) =
    some (succeededRow, [(0, .read runningDatabase.store),
        (0, .update runningDatabase.store succeededRow)],
      [(1, .read succeededRow), (1, .update succeededRow succeededRow)]) := by rfl
  obtain ⟨⟨tr, c⟩, hs, hrun⟩ := Option.bind_eq_some_iff.1 hrun
  obtain ⟨⟨tr', c'⟩, hs', hf⟩ := Option.map_eq_some_iff.1 hrun
  simp only [Prod.mk.injEq] at hf
  obtain ⟨hstore, hevs, hevs'⟩ := hf
  have hC : Meets Synchronised (events (tr ++ tr')) := by
    rw [events_append, hevs, hevs']
    have hnil : Meets (ι := Fin 2) Synchronised [] := fun pre i e post he => by
      simp at he
    refine ((((hnil.snoc (i := 0) (e := .read runningDatabase.store) trivial).snoc
      (i := 0) (e := .update runningDatabase.store succeededRow) ?_).snoc
      (i := 1) (e := .read succeededRow) trivial).snoc
      (i := 1) (e := .update succeededRow succeededRow) ?_)
    · intro hp
      cases hp
    · intro _ r hr
      cases hr
      rfl
  have hr := run_of_scheduleAll hs
  have hr' := run_of_scheduleAll hs'
  exact ⟨tr, tr', c, c', hr, hr', hstore, hevs',
    code_kept_of_synchronised (fun i => ⟨_, rfl⟩) hr hr' hC (by rw [hstore]; rfl)⟩

/-- Both handles load the running row before either of them finalises it. -/
def failAfterSuccess : List (Move (Fin 2) (X := Empty) (fun _ => Unit) Finalisation) :=
  [.call 0 .success, .go 0, .call 1 (.fail 500), .go 1, .go 0]

theorem code_overwritten :
    ¬ ∀ (tr tr' : List (Finalisations.Label (Fin 2))) (c c' : Finalisations (Fin 2)),
      Run Finalisation.run runningFinalisations tr c →
      Run Finalisation.run c tr' c' → c.store.progress = 100 →
      c'.store.code = c.store.code := by
  intro hall
  have hrun : ((scheduleAll Finalisation.run runningFinalisations
      failAfterSuccess).bind fun p => (scheduleAll Finalisation.run p.2 [.go 1]).map
        fun q => (p.2.store, q.2.store.code)) = some (succeededRow, 500) := by rfl
  obtain ⟨⟨tr, c⟩, hs, hrun⟩ := Option.bind_eq_some_iff.1 hrun
  obtain ⟨⟨tr', c'⟩, hs', hf⟩ := Option.map_eq_some_iff.1 hrun
  simp only [Prod.mk.injEq] at hf
  have hcode := hall tr tr' c c' (run_of_scheduleAll hs) (run_of_scheduleAll hs')
    (by rw [hf.1]; rfl)
  rw [hf.1, hf.2] at hcode
  cases hcode

end Status

end Gearbox
