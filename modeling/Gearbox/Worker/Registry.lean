import Gearbox.Assoc.Ordered
import Gearbox.Refinement.Meets
import Mathlib.Logic.Function.Basic

/-!
# The handlers of a worker

A worker keeps an object for every handler that it has registered. The library of gearman holds a
pointer to it, which it hands to the callback, and the callback looks at the object again after the
handler has returned. A handler may itself register and deregister handlers.

Deregistering frees the object at once, also if its handler is running. The callback then reads it
after it was freed, and the object is not freed a second time only by chance. In all other runs
every object is read while it is alive, and freed once.
-/

namespace Gearbox

namespace Registry

open Refinement

/-- `callback_args`, as far as they matter for its lifetime. -/
structure CallbackArgs where
  name : String
  inUse : Bool
  deriving DecidableEq

/-- The objects that are alive, the address of the next one, `argmap`, and what the library of
gearman holds. -/
structure Handlers where
  heap : ℕ → Option CallbackArgs := fun _ => none
  next : ℕ := 0
  argmap : List (String × ℕ) := []
  functions : String → Option ℕ := fun _ => none

/-- How a call ends that does not return. -/
inductive Fault where
  /-- an object is used that is not alive -/
  | dangling (p : ℕ)
  | error (message : String)

section Memory

/-- An access to an object. -/
def read (p : ℕ) : Code Handlers Fault CallbackArgs :=
  Code.mk fun h =>
    match h.heap p with
    | some args => (.ok args, h)
    | none => (.error (.dangling p), h)

/-- `new` -/
def alloc (args : CallbackArgs) : Code Handlers Fault ℕ :=
  Code.mk fun h =>
    (.ok h.next, { h with heap := Function.update h.heap h.next (some args), next := h.next + 1 })

/-- `delete` -/
def free (p : ℕ) : Code Handlers Fault Unit := do
  let _ ← read p
  modify fun h => { h with heap := Function.update h.heap p none }

end Memory

section Source

/-- `Worker::register_handler`; `added` says whether `gearman_worker_add_function` succeeds. -/
def registerHandler (name : String) (added : Bool) : Code Handlers Fault Unit := do
  let p ← alloc ⟨name, true⟩
  if added then
    modify fun h => { h with
      functions := Function.update h.functions name (some p)
      argmap := (name, p) :: h.argmap.filter (·.1 ≠ name) }
  else do
    free p
    throw (.error "gearman_worker_add_function: ")

/-- `Worker::deregister_handler`; `removed` says whether `gearman_worker_unregister` succeeds. -/
def deregisterHandler (name : String) (removed : Bool) : Code Handlers Fault Unit := do
  match (← get).argmap.lookup name with
  | none => throw (.error ("cannot unregister uknown handler: " ++ name))
  | some p =>
    if removed then do
      modify fun h => { h with functions := Function.update h.functions name none }
      let args ← read p
      modify fun h =>
        { h with heap := Function.update h.heap p (some { args with inUse := false }) }
      free p
      modify fun h => { h with argmap := h.argmap.filter (·.1 ≠ name) }
    else throw (.error "gearman_worker_unregister: ")

/-- What a handler or the program does with the handlers of a worker. -/
inductive Action where
  | register (name : String) (added : Bool)
  | deregister (name : String) (removed : Bool)
  deriving DecidableEq

def perform : Action → Code Handlers Fault Unit
  | .register name added => registerHandler name added
  | .deregister name removed => deregisterHandler name removed

def performAll : List Action → Code Handlers Fault Unit
  | [] => pure ()
  | a :: actions => do
    perform a
    performAll actions

/-- An exception is caught, and the use of an object that is not alive is not one. -/
def caught : Fault → Code Handlers Fault Unit
  | .dangling p => throw (.dangling p)
  | .error _ => pure ()

/-- `run_job` for a job of this name, with what its handler does. -/
def runJob (name : String) (handler : List Action) : Code Handlers Fault Unit := do
  match (← get).functions name with
  | none => pure ()
  | some p => do
    let _ ← read p
    tryCatch (performAll handler) caught
    let args ← read p
    if args.inUse then pure () else free p

/-- What the program does between two jobs, or a job. -/
inductive Event where
  | program (actions : List Action)
  | job (name : String) (handler : List Action)

def runEvent : Event → Code Handlers Fault Unit
  | .program actions => tryCatch (performAll actions) caught
  | .job name handler => runJob name handler

/-- A run of the worker. -/
def run : List Event → Code Handlers Fault Unit
  | [] => pure ()
  | ev :: events => do
    runEvent ev
    run events

/-- The destructor frees the objects of `argmap`. -/
def destroy : List (String × ℕ) → Code Handlers Fault Unit
  | [] => pure ()
  | entry :: rest => do
    free entry.2
    destroy rest

end Source

section Names

/-- The names after an action, if it returns. -/
def act : Action → List String → Option (List String)
  | .register name added, names => if added then some (name :: names) else none
  | .deregister name removed, names =>
    if name ∈ names ∧ removed then some (names.filter (· ≠ name)) else none

/-- The names after the actions of a handler, up to the first one that throws. -/
def actAll : List Action → List String → List String
  | [], names => names
  | a :: actions, names =>
    match act a names with
    | some names => actAll actions names
    | none => names

/-- One of these actions takes the handler away. -/
def Takes (own : String) : List Action → List String → Prop
  | [], _ => False
  | a :: actions, names =>
    match act a names with
    | some names => a = .deregister own true ∨ Takes own actions names
    | none => False

/-- A name is registered only if it is not. -/
def Fresh : List Action → List String → Prop
  | [], _ => True
  | a :: actions, names =>
    (∀ name, a = .register name true → name ∉ names) ∧
      match act a names with
      | some names => Fresh actions names
      | none => True

/-- The actions of an event. -/
def Event.actions : Event → List String → List Action
  | .program actions, _ => actions
  | .job name handler, names => if name ∈ names then handler else []

/-- No job takes its own handler away. -/
def Harmless : List Event → List String → Prop
  | [], _ => True
  | ev :: events, names =>
    (∀ name handler, ev = .job name handler → ¬ Takes name (ev.actions names) names) ∧
      Harmless events (actAll (ev.actions names) names)

/-- No name is registered twice. -/
def AllFresh : List Event → List String → Prop
  | [], _ => True
  | ev :: events, names =>
    Fresh (ev.actions names) names ∧ AllFresh events (actAll (ev.actions names) names)

end Names

/-- The registered names. -/
def Handlers.names (h : Handlers) : List String :=
  h.argmap.map Prod.fst

/-- `argmap` and the table of the library agree, and the objects that are alive are the ones of
`argmap`. -/
structure Kept (h : Handlers) : Prop where
  keys : h.names.Nodup
  table : ∀ name, h.functions name = h.argmap.lookup name
  live : ∀ p args, h.heap p = some args ↔ args.inUse = true ∧ (args.name, p) ∈ h.argmap
  bound : ∀ entry ∈ h.argmap, entry.2 < h.next

section Kept

variable {h h' : Handlers} {name own : String} {p : ℕ} {a : Action} {names : List String}

theorem kept_empty : Kept {} where
  keys := List.nodup_nil
  table _ := rfl
  live p args := by
    constructor
    · rintro ⟨⟩
    · rintro ⟨-, hmem⟩
      cases hmem
  bound _ hmem := by cases hmem

theorem Kept.heap_of_mem (hk : Kept h) (hmem : (name, p) ∈ h.argmap) :
    h.heap p = some ⟨name, true⟩ :=
  (hk.live p ⟨name, true⟩).mpr ⟨rfl, hmem⟩

theorem Kept.heap_eq_none (hk : Kept h) (hp : h.next ≤ p) : h.heap p = none := by
  cases hheap : h.heap p with
  | none => rfl
  | some args =>
      have hlt := hk.bound _ ((hk.live p args).mp hheap).2
      exact absurd hp (Nat.not_le.mpr hlt)

theorem Kept.lookup_iff (hk : Kept h) :
    h.argmap.lookup name = some p ↔ (name, p) ∈ h.argmap :=
  (Assoc.mem_iff_lookup_of_nodup hk.keys).symm

theorem lookup_eq_none_iff : h.argmap.lookup name = none ↔ name ∉ h.names := by
  rw [← Option.not_isSome_iff_eq_none, Assoc.isSome_lookup, decide_eq_true_iff]
  rfl

theorem mem_filter_ne {entry : String × ℕ} :
    entry ∈ h.argmap.filter (·.1 ≠ name) ↔ entry ∈ h.argmap ∧ entry.1 ≠ name := by
  rw [List.mem_filter, decide_eq_true_iff]

theorem map_filter_ne :
    (h.argmap.filter (·.1 ≠ name)).map Prod.fst = h.names.filter (· ≠ name) := by
  rw [Handlers.names, List.filter_map]
  rfl

/-- A new handler. -/
theorem Kept.register (hk : Kept h) (hname : name ∉ h.names) :
    Kept { heap := Function.update h.heap h.next (some ⟨name, true⟩), next := h.next + 1,
           argmap := (name, h.next) :: h.argmap.filter (·.1 ≠ name),
           functions := Function.update h.functions name (some h.next) } := by
  have hfilter : h.argmap.filter (·.1 ≠ name) = h.argmap :=
    Assoc.filter_ne_of_lookup (lookup_eq_none_iff.mpr hname)
  rw [hfilter]
  constructor
  · exact List.nodup_cons.mpr ⟨hname, hk.keys⟩
  · intro name'
    dsimp only
    rw [Assoc.lookup_cons_eq]
    by_cases heq : name' = name
    · rw [if_pos heq, heq, Function.update_self]
    · rw [if_neg heq, Function.update_of_ne heq, hk.table]
  · intro p args
    dsimp only
    rw [List.mem_cons]
    by_cases hp : p = h.next
    · subst hp
      rw [Function.update_self]
      constructor
      · intro hsome
        cases hsome
        exact ⟨rfl, Or.inl rfl⟩
      · rintro ⟨huse, hnew | hmem⟩
        · obtain ⟨n, u⟩ := args
          cases huse
          cases hnew
          rfl
        · exact absurd (hk.bound _ hmem) (Nat.lt_irrefl _)
    · rw [Function.update_of_ne hp, hk.live, Prod.mk.injEq, or_iff_right fun hnew => hp hnew.2]
  · intro entry hentry
    rcases List.mem_cons.mp hentry with rfl | hmem
    · exact Nat.lt_succ_self _
    · exact Nat.lt_succ_of_lt (hk.bound _ hmem)

/-- A handler less. -/
theorem Kept.deregister (hk : Kept h) (hmem : (name, p) ∈ h.argmap) :
    Kept { heap := Function.update h.heap p none, next := h.next,
           argmap := h.argmap.filter (·.1 ≠ name),
           functions := Function.update h.functions name none } := by
  constructor
  · rw [Handlers.names, map_filter_ne]
    exact hk.keys.filter _
  · intro name'
    dsimp only
    rw [Assoc.lookup_filter_ne]
    by_cases heq : name' = name
    · rw [if_pos heq, heq, Function.update_self]
    · rw [if_neg heq, Function.update_of_ne heq, hk.table]
  · intro q args
    dsimp only
    rw [mem_filter_ne]
    by_cases hq : q = p
    · subst hq
      rw [Function.update_self]
      constructor
      · rintro ⟨⟩
      · rintro ⟨huse, hargs, hne⟩
        have hheap := hk.heap_of_mem hmem
        rw [(hk.live q args).mpr ⟨huse, hargs⟩] at hheap
        cases hheap
        exact absurd rfl hne
    · rw [Function.update_of_ne hq, hk.live]
      constructor
      · rintro ⟨huse, hargs⟩
        refine ⟨huse, hargs, ?_⟩
        intro heq
        dsimp only at heq
        rw [heq] at hargs
        have hsame := (hk.lookup_iff.mpr hargs).symm.trans (hk.lookup_iff.mpr hmem)
        exact hq (Option.some.inj hsame)
      · rintro ⟨huse, hargs, -⟩
        exact ⟨huse, hargs⟩
  · intro entry hentry
    exact hk.bound _ (mem_filter_ne.mp hentry).1

end Kept

section Actions

variable {h h' : Handlers} {name own : String} {p : ℕ} {a : Action} {names : List String}
  {actions : List Action}

theorem outcome_read (hk : Kept h) (hmem : (name, p) ∈ h.argmap) :
    outcome (read p) h = (.ok ⟨name, true⟩, h) := by
  rw [read, outcome_mk, hk.heap_of_mem hmem]

theorem outcome_read_none (hnone : h.heap p = none) :
    outcome (read p) h = (.error (.dangling p), h) := by
  rw [read, outcome_mk, hnone]

theorem outcome_free {args : CallbackArgs} (hsome : h.heap p = some args) :
    outcome (free p) h = (.ok (), { h with heap := Function.update h.heap p none }) := by
  have hread : outcome (read p) h = (.ok args, h) := by
    rw [read, outcome_mk, hsome]
  rw [free, outcome_bind_ok hread]
  rfl

/-- An action that returns: the handlers are kept, an address that is not alive stays so, and only
the handler that is deregistered goes. -/
theorem outcome_perform (hk : Kept h) (hfresh : ∀ name, a = .register name true → name ∉ h.names)
    (hact : act a h.names = some names) :
    ∃ h', outcome (perform a) h = (.ok (), h') ∧ Kept h' ∧ h'.names = names ∧ h.next ≤ h'.next ∧
      (∀ p, p < h.next → h.heap p = none → h'.heap p = none) ∧
      ∀ own p, (own, p) ∈ h.argmap →
        if a = .deregister own true then h'.heap p = none else (own, p) ∈ h'.argmap := by
  cases a with
  | register name added =>
      rw [act] at hact
      split at hact
      · rename_i hadded
        cases hact
        subst hadded
        have hname := hfresh name rfl
        refine ⟨_, rfl, hk.register hname, ?_, Nat.le_succ _, ?_, ?_⟩
        · have hfilter : h.names.filter (· ≠ name) = h.names := by
            refine List.filter_eq_self.mpr fun other hother => decide_eq_true ?_
            rintro rfl
            exact hname hother
          rw [Handlers.names, List.map_cons, map_filter_ne]
          exact congrArg (name :: ·) hfilter
        · intro p hp hnone
          dsimp only
          rwa [Function.update_of_ne (Nat.ne_of_lt hp)]
        · intro own p hmem
          rw [if_neg (by simp)]
          refine List.mem_cons_of_mem _ (mem_filter_ne.mpr ⟨hmem, ?_⟩)
          rintro rfl
          exact hname (List.mem_map_of_mem hmem)
      · cases hact
  | deregister name removed =>
      rw [act] at hact
      split at hact
      · rename_i hboth
        cases hact
        obtain ⟨hname, rfl⟩ := hboth
        obtain ⟨⟨name', p⟩, hmem, rfl⟩ := List.mem_map.mp hname
        dsimp only at hname ⊢
        have hread := hk.heap_of_mem hmem
        have hrun : outcome (perform (.deregister name' true)) h = (.ok (),
            { heap := Function.update h.heap p none, next := h.next,
              argmap := h.argmap.filter (·.1 ≠ name'),
              functions := Function.update h.functions name' none }) := by
          rw [perform, deregisterHandler, outcome_bind_ok (outcome_get h),
            hk.lookup_iff.mpr hmem]
          dsimp only
          rw [if_pos rfl, outcome_bind_ok (outcome_modify _ h)]
          have hread' : outcome (read p)
              { h with functions := Function.update h.functions name' none } =
                (.ok ⟨name', true⟩,
                  { h with functions := Function.update h.functions name' none }) := by
            rw [read, outcome_mk]
            dsimp only
            rw [hread]
          rw [outcome_bind_ok hread', outcome_bind_ok (outcome_modify _ _),
            outcome_bind_ok (outcome_free (Function.update_self _ _ _)), outcome_modify]
          dsimp only
          rw [Function.update_idem]
        refine ⟨_, hrun, hk.deregister hmem, map_filter_ne, Nat.le_refl _, ?_, ?_⟩
        · intro q _ hnone
          dsimp only
          by_cases hq : q = p
          · rw [hq, Function.update_self]
          · rwa [Function.update_of_ne hq]
        · intro own q hown
          split
          · rename_i heq
            cases heq
            have hsame := (hk.lookup_iff.mpr hown).symm.trans (hk.lookup_iff.mpr hmem)
            dsimp only
            rw [Option.some.inj hsame, Function.update_self]
          · rename_i hne
            refine mem_filter_ne.mpr ⟨hown, ?_⟩
            rintro rfl
            exact hne rfl
      · cases hact

/-- An action that throws. -/
theorem outcome_perform_error (hk : Kept h) (hact : act a h.names = none) :
    ∃ message h', outcome (perform a) h = (.error (.error message), h') ∧ Kept h' ∧
      h'.argmap = h.argmap ∧ h'.heap = h.heap ∧ h.next ≤ h'.next := by
  cases a with
  | register name added =>
      cases added with
      | true => cases hact
      | false =>
          have hfree : outcome (free h.next)
              { h with heap := Function.update h.heap h.next (some ⟨name, true⟩),
                       next := h.next + 1 } =
              (.ok (), { h with next := h.next + 1 }) := by
            rw [outcome_free (Function.update_self _ _ _)]
            dsimp only
            rw [Function.update_idem, ← hk.heap_eq_none (Nat.le_refl h.next),
              Function.update_eq_self]
          refine ⟨"gearman_worker_add_function: ", { h with next := h.next + 1 }, ?_,
            ⟨hk.keys, hk.table, hk.live, ?_⟩, rfl, rfl, Nat.le_succ _⟩
          · have halloc : outcome (alloc ⟨name, true⟩) h = (.ok h.next,
                { h with heap := Function.update h.heap h.next (some ⟨name, true⟩),
                         next := h.next + 1 }) := rfl
            rw [perform, registerHandler, outcome_bind_ok halloc, if_neg Bool.false_ne_true,
              outcome_bind_ok hfree]
            rfl
          · exact fun entry hentry => Nat.lt_succ_of_lt (hk.bound entry hentry)
  | deregister name removed =>
      rw [act] at hact
      split at hact
      · cases hact
      · rename_i hnot
        rw [perform, deregisterHandler, outcome_bind_ok (outcome_get h)]
        cases hlookup : h.argmap.lookup name with
        | none => exact ⟨_, h, rfl, hk, rfl, rfl, Nat.le_refl _⟩
        | some p =>
            have hname : name ∈ h.names := by
              by_contra hnone
              rw [lookup_eq_none_iff.mpr hnone] at hlookup
              cases hlookup
            dsimp only
            rw [if_neg fun hremoved => hnot ⟨hname, hremoved⟩]
            exact ⟨_, h, rfl, hk, rfl, rfl, Nat.le_refl _⟩

/-- The actions of a handler, up to the first one that throws. -/
theorem outcome_performAll (hk : Kept h) (hfresh : Fresh actions h.names) :
    ∃ r h', outcome (performAll actions) h = (r, h') ∧ (∀ p, r ≠ .error (.dangling p)) ∧
      Kept h' ∧ h'.names = actAll actions h.names ∧ h.next ≤ h'.next ∧
      (∀ p, p < h.next → h.heap p = none → h'.heap p = none) ∧
      ∀ own p, (own, p) ∈ h.argmap →
        (Takes own actions h.names → h'.heap p = none) ∧
        (¬ Takes own actions h.names → (own, p) ∈ h'.argmap) := by
  induction actions generalizing h with
  | nil =>
      refine ⟨_, h, rfl, ?_, hk, rfl, Nat.le_refl _, fun _ _ hnone => hnone, ?_⟩
      · rintro p ⟨⟩
      · exact fun own p hmem => ⟨False.elim, fun _ => hmem⟩
  | cons a actions ih =>
      rw [Fresh] at hfresh
      cases hact : act a h.names with
      | none =>
          obtain ⟨message, h₁, hrun, hk₁, hargmap, hheap, hnext⟩ := outcome_perform_error hk hact
          refine ⟨.error (.error message), h₁, ?_, ?_, hk₁, ?_, hnext, ?_, ?_⟩
          · rw [performAll, outcome_bind_error hrun]
          · rintro p ⟨⟩
          · rw [actAll, hact, Handlers.names, hargmap]
            rfl
          · intro p _ hnone
            rwa [hheap]
          · intro own p hmem
            rw [Takes, hact, hargmap]
            exact ⟨False.elim, fun _ => hmem⟩
      | some names =>
          obtain ⟨h₁, hrun, hk₁, hnames, hnext, hdead, hown⟩ :=
            outcome_perform hk hfresh.1 hact
          have hfresh₁ : Fresh actions h₁.names := by
            have hrest := hfresh.2
            rw [hact] at hrest
            rwa [hnames]
          obtain ⟨r, h', hrest, hr, hk', hnames', hnext', hdead', hown'⟩ := ih hk₁ hfresh₁
          refine ⟨r, h', ?_, hr, hk', ?_, Nat.le_trans hnext hnext', ?_, ?_⟩
          · rw [performAll, outcome_bind_ok hrun, hrest]
          · rw [hnames', hnames, actAll, hact]
          · exact fun p hp hnone =>
              hdead' p (Nat.lt_of_lt_of_le hp hnext) (hdead p hp hnone)
          · intro own p hmem
            have hfirst := hown own p hmem
            have hlt : p < h₁.next := Nat.lt_of_lt_of_le (hk.bound _ hmem) hnext
            rw [Takes, hact]
            dsimp only
            by_cases ha : a = .deregister own true
            · rw [if_pos ha] at hfirst
              exact ⟨fun _ => hdead' p hlt hfirst, fun hnot => absurd (Or.inl ha) hnot⟩
            · rw [if_neg ha] at hfirst
              rw [or_iff_right ha, ← hnames]
              exact hown' own p hfirst

end Actions

section Runs

variable {h : Handlers} {actions : List Action} {events : List Event} {ev : Event}

theorem outcome_caught (hk : Kept h) (hfresh : Fresh actions h.names) :
    ∃ h', outcome (tryCatch (performAll actions) caught) h = (.ok (), h') ∧ Kept h' ∧
      h'.names = actAll actions h.names ∧
      ∀ own p, (own, p) ∈ h.argmap →
        (Takes own actions h.names → h'.heap p = none) ∧
        (¬ Takes own actions h.names → (own, p) ∈ h'.argmap) := by
  obtain ⟨r, h', hrun, hr, hk', hnames, -, -, hown⟩ := outcome_performAll hk hfresh
  refine ⟨h', ?_, hk', hnames, hown⟩
  rw [outcome_tryCatch, hrun]
  cases r with
  | ok u => rfl
  | error fault =>
      cases fault with
      | dangling p => exact absurd rfl (hr p)
      | error message => rfl

/-- A job takes its own handler away. -/
def TakesOwn (ev : Event) (names : List String) : Prop :=
  ∃ name handler, ev = .job name handler ∧ Takes name (ev.actions names) names

/-- One event. It uses an object that is not alive if it is a job that takes its own handler
away. -/
theorem outcome_runEvent (hk : Kept h) (hfresh : Fresh (ev.actions h.names) h.names) :
    (TakesOwn ev h.names → ∃ p h', outcome (runEvent ev) h = (.error (.dangling p), h')) ∧
      (¬ TakesOwn ev h.names → ∃ h', outcome (runEvent ev) h = (.ok (), h') ∧ Kept h' ∧
        h'.names = actAll (ev.actions h.names) h.names) := by
  cases ev with
  | program actions =>
      obtain ⟨h', hrun, hk', hnames, -⟩ := outcome_caught hk hfresh
      refine ⟨?_, fun _ => ⟨h', hrun, hk', hnames⟩⟩
      rintro ⟨name, handler, ⟨⟩, -⟩
  | job name handler =>
      rw [runEvent, runJob, outcome_bind_ok (outcome_get h), hk.table]
      by_cases hname : name ∈ h.names
      · have hactions : (Event.job name handler).actions h.names = handler := if_pos hname
        obtain ⟨⟨name', p⟩, hmem, rfl⟩ := List.mem_map.mp hname
        rw [hactions] at hfresh ⊢
        obtain ⟨h', hrun, hk', hnames, hown⟩ := outcome_caught hk hfresh
        obtain ⟨hdead, halive⟩ := hown name' p hmem
        rw [hk.lookup_iff.mpr hmem]
        dsimp only
        rw [outcome_bind_ok (outcome_read hk hmem), outcome_bind_ok hrun]
        constructor
        · rintro ⟨own, body, heq, htakes⟩
          cases heq
          rw [hactions] at htakes
          exact ⟨p, h', outcome_bind_error (outcome_read_none (hdead htakes))⟩
        · intro hnot
          have hsafe : ¬ Takes name' handler h.names := by
            intro htakes
            refine hnot ⟨name', handler, rfl, ?_⟩
            rwa [hactions]
          refine ⟨h', ?_, hk', hnames⟩
          rw [outcome_bind_ok (outcome_read hk' (halive hsafe)), if_pos rfl]
          rfl
      · have hactions : (Event.job name handler).actions h.names = [] := if_neg hname
        rw [hactions, lookup_eq_none_iff.mpr hname]
        refine ⟨?_, fun _ => ⟨h, rfl, hk, rfl⟩⟩
        rintro ⟨own, body, heq, htakes⟩
        cases heq
        rw [hactions] at htakes
        exact htakes.elim

theorem harmless_cons {names : List String} : Harmless (ev :: events) names ↔
    ¬ TakesOwn ev names ∧ Harmless events (actAll (ev.actions names) names) := by
  rw [Harmless, TakesOwn]
  refine and_congr_left fun _ => ?_
  constructor
  · rintro hall ⟨name, handler, hev, htakes⟩
    exact hall name handler hev htakes
  · intro hnot name handler hev htakes
    exact hnot ⟨name, handler, hev, htakes⟩

/-- A run. -/
theorem outcome_run (hk : Kept h) (hfresh : AllFresh events h.names) :
    (Harmless events h.names → ∃ h', outcome (run events) h = (.ok (), h') ∧ Kept h') ∧
      (¬ Harmless events h.names →
        ∃ p h', outcome (run events) h = (.error (.dangling p), h')) := by
  induction events generalizing h with
  | nil => exact ⟨fun _ => ⟨h, rfl, hk⟩, fun hnot => absurd trivial hnot⟩
  | cons ev events ih =>
      rw [AllFresh] at hfresh
      obtain ⟨htakes, hsafe⟩ := outcome_runEvent hk hfresh.1
      rw [harmless_cons, run]
      by_cases hown : TakesOwn ev h.names
      · obtain ⟨p, h₁, hrun⟩ := htakes hown
        refine ⟨fun hboth => absurd hown hboth.1, fun _ => ⟨p, h₁, ?_⟩⟩
        rw [outcome_bind_error hrun]
      · obtain ⟨h₁, hrun, hk₁, hnames⟩ := hsafe hown
        rw [outcome_bind_ok hrun, and_iff_right hown, ← hnames]
        exact ih hk₁ (hnames ▸ hfresh.2)

/-- The destructor frees every object once. -/
theorem outcome_destroy {entries : List (String × ℕ)}
    (hlive : ∀ p args, h.heap p = some args ↔ args.inUse = true ∧ (args.name, p) ∈ entries)
    (hkeys : (entries.map Prod.fst).Nodup) :
    ∃ h', outcome (destroy entries) h = (.ok (), h') ∧ ∀ p, h'.heap p = none := by
  induction entries generalizing h with
  | nil =>
      refine ⟨h, rfl, fun p => ?_⟩
      cases hheap : h.heap p with
      | none => rfl
      | some args => cases ((hlive p args).mp hheap).2
  | cons entry entries ih =>
      obtain ⟨name, p⟩ := entry
      rw [List.map_cons, List.nodup_cons] at hkeys
      have hsome : h.heap p = some ⟨name, true⟩ := (hlive p _).mpr ⟨rfl, List.mem_cons_self⟩
      rw [destroy, outcome_bind_ok (outcome_free hsome)]
      refine ih ?_ hkeys.2
      intro q args
      dsimp only
      by_cases hq : q = p
      · subst hq
        rw [Function.update_self]
        constructor
        · rintro ⟨⟩
        · rintro ⟨huse, hmem⟩
          have hheap := (hlive q args).mpr ⟨huse, List.mem_cons_of_mem _ hmem⟩
          rw [hsome] at hheap
          cases hheap
          exact absurd (List.mem_map_of_mem hmem) hkeys.1
      · rw [Function.update_of_ne hq, hlive, List.mem_cons, Prod.mk.injEq,
          or_iff_right fun hnew => hq hnew.2]

/-- If no name is registered twice, then a run and the destructor after it use objects that are
alive only, and free each of them once, exactly if no job takes its own handler away. -/
theorem run_safe_iff (hfresh : AllFresh events []) :
    (∃ h h', outcome (run events) {} = (.ok (), h) ∧
        outcome (destroy h.argmap) h = (.ok (), h') ∧ (∀ p, h'.heap p = none) ∧
        ∀ p args, h.heap p = some args → args.inUse = true) ↔
      Harmless events [] := by
  obtain ⟨hsafe, hdangling⟩ := outcome_run kept_empty hfresh
  constructor
  · rintro ⟨h, h', hrun, -, -, -⟩
    by_contra hnot
    obtain ⟨p, h'', hfault⟩ := hdangling hnot
    rw [hrun] at hfault
    cases hfault
  · intro hharmless
    obtain ⟨h, hrun, hk⟩ := hsafe hharmless
    obtain ⟨h', hdestroy, hempty⟩ := outcome_destroy hk.live hk.keys
    exact ⟨h, h', hrun, hdestroy, hempty, fun p args hheap => ((hk.live p args).mp hheap).1⟩

theorem run_safe_iff_jobs :
    (∃ h h', outcome (run [.program [.register "do_get_a_v1" true, .register "do_get_b_v1" true],
          .job "do_get_a_v1" [.deregister "do_get_b_v1" true]]) {} = (.ok (), h) ∧
        outcome (destroy h.argmap) h = (.ok (), h') ∧ (∀ p, h'.heap p = none) ∧
        ∀ p args, h.heap p = some args → args.inUse = true) ↔
      Harmless [.program [.register "do_get_a_v1" true, .register "do_get_b_v1" true],
        .job "do_get_a_v1" [.deregister "do_get_b_v1" true]] [] := by
  refine run_safe_iff ?_
  simp [AllFresh, Fresh, Event.actions, act, actAll]

end Runs

end Registry

end Gearbox
