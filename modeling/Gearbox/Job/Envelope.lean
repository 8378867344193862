import Gearbox.Job.Schemas
import Gearbox.Status.Resource

/-!
# The envelope of a job

`Job::serialize` writes the fields of a job as an object, which is called its envelope. The
empty fields are left out. A handler is written as an object with its name and its own
envelope, which is serialized and parsed again, so that the envelope of a handler has been
through a text once for every job above it.

A job with `2 ^ 31` or more arguments has no envelope, since the index of the last one is not
an `int`.
-/

namespace Gearbox

namespace Jobs

open Json Refinement

variable {S D : Type}

/-- `Status::serialize` and `StatusManager::fetch` -/
structure Statuses (S D : Type) where
  serialize : S → Except Failure Text
  fetch : Json D → Except Failure S

section ToJson

/-- The loop that writes the entries of a `Hash`. -/
def writeHash (h : Hash) : Json D :=
  .object (Assoc.assignAll (h.entries.map fun e => (e.1, some (.string e.2))) [])

/-- A text, if it is not empty. -/
def writeText (text : String) : Option (Json D) :=
  if text = "" then none else some (.string text)

/-- The entries of `remote`, if there are any. -/
def writeRemote (f : Fields) : Option (Json D) :=
  if f.remoteIp = "" ∧ f.remoteUser = "" then none
  else some (.object (Assoc.assignAll
    [("ip", writeText f.remoteIp), ("user", writeText f.remoteUser)] []))

/-- The entries of `on`, if there are any. -/
def writeOn (handlers : List (Option (Json D))) : Option (Json D) :=
  if ∀ h ∈ handlers, h.isNone then none
  else some (.object (Assoc.assignAll ((Event.all.map event2str).zip handlers) []))

/-- The entries of `resource`. -/
def writeResource (f : Fields) : Json D :=
  .object (Assoc.assignAll
    [("type", some (.string f.resourceType)), ("name", writeText f.resourceName)] [])

/-- The assignments of `to_json`, in their order. -/
def Fields.entries (f : Fields) (arguments : Json D) (on status : Option (Json D)) :
    List (String × Option (Json D)) :=
  [("version", some (.string f.version)),
    ("job_type", some (.string (if f.type = .sync then "sync" else "async"))),
    ("operation", some (.string f.operation.text)),
    ("component", some (.string f.component)),
    ("resource", some (writeResource f)),
    ("remote", writeRemote f),
    ("base_uri", writeText f.baseUri),
    ("parent_uri", writeText f.parentUri),
    ("status", writeText f.status),
    ("arguments", some arguments),
    ("matrix_arguments", some (writeHash f.matrixArguments)),
    ("headers", some (writeHash f.headers)),
    ("environ", some (writeHash f.environ)),
    ("query_params", some (writeHash f.queryParams)),
    ("on", on),
    ("event_status", status),
    ("content", writeText f.content)]

/-- The envelope of a job with few arguments. -/
def Fields.envelope (f : Fields) (on status : Option (Json D)) : Json D :=
  .object (Assoc.assignAll (f.entries (.array (f.arguments.map .string)) on status) [])

/-- The entry of a handler in `on`. -/
def handlerEntry (name : String) (envelope : Json D) : Json D :=
  .object (Assoc.assignAll [("name", some (.string name)), ("envelope", some envelope)] [])

variable (env : Env D) (st : Statuses S D)

/-- The status that an event handler gets. -/
def writeStatus : Option S → Except Failure (Option (Json D))
  | none => return none
  | some s => do return some (← parsed env (← st.serialize s))

mutual

/-- `JobImpl::to_json` -/
def toJson : Job S → Except Failure (Json D)
  | .mk f events eventStatus => do
    let arguments ← Status.writeArray pure f.arguments
    let handlers ← Event.all.mapM fun e => writeHandler (events e)
    let status ← writeStatus env st eventStatus
    return .object (Assoc.assignAll (f.entries arguments (writeOn handlers) status) [])

/-- The entry of an event in `on`. -/
def writeHandler : Option (Job S) → Except Failure (Option (Json D))
  | none => return none
  | some j => do
    let envelope ← resent env (← toJson j)
    return some (handlerEntry j.fields.name envelope)

end

/-- `Job::serialize` -/
def Job.serialize (j : Job S) : Except Failure Text := do
  Json.serialize env (← toJson env st j)

end ToJson

section Sent

variable (env : Env D) (st : Statuses S D)

/-- The tree that is read from its text again and again. -/
def rereads : ℕ → Json D → Option (Json D)
  | 0, j => some j
  | n + 1, j => (rereads n j).bind (reread env)

/-- The status that an event handler gets has been through `n + 1` texts. -/
def SentStatus (n : ℕ) : Option S → Option (Json D) → Prop
  | none, y => y = none
  | some s, y => ∃ text v₀ v, st.serialize s = .ok text ∧ parsed env text = .ok v₀ ∧
      rereads env n v₀ = some v ∧ y = some v

mutual

/-- The envelope of the job, after it has been through `n` texts, is the tree. -/
def Sent : Job S → ℕ → Json D → Prop
  | .mk f events eventStatus, n, v => f.arguments.length < 2 ^ 31 ∧
    ∃ (handlers : Event → Option (Json D)) (status : Option (Json D)),
      (∀ e, SentHandler (events e) (n + 1) (handlers e)) ∧
      SentStatus env st n eventStatus status ∧
      v = f.envelope (writeOn (Event.all.map handlers)) status

/-- The entry of a handler, with an envelope that has been through `n` texts. -/
def SentHandler : Option (Job S) → ℕ → Option (Json D) → Prop
  | none, _, y => y = none
  | some j, n, y => ∃ v, Sent j n v ∧ y = some (handlerEntry j.fields.name v)

end

end Sent

section Reread

variable {env : Env D}

theorem nodup_entries (f : Fields) (arguments : Json D) (on status : Option (Json D)) :
    ((f.entries arguments on status).map Prod.fst).Nodup := by
  simp [Fields.entries]

/-- The second tree is read from the text of the first one. -/
def Returns (env : Env D) (j j' : Json D) : Prop :=
  reread env j = some j'

theorem Returns.unique {j j₁ j₂ : Json D} (h₁ : Returns env j j₁) (h₂ : Returns env j j₂) :
    j₁ = j₂ := by
  rw [Returns, h₁] at h₂
  exact Option.some.inj h₂

theorem returns_string (v : String) : Returns env (.string v) (.string v) :=
  rfl

theorem returns_text (v : String) :
    Option.Rel (Returns env) (writeText v) (writeText v) := by
  rw [writeText]
  split
  · exact .none
  · exact .some (returns_string v)

theorem returns_hash (h : Hash) : Returns env (writeHash h) (writeHash h) := by
  apply reread_assignAll
  rw [Assoc.Related, List.forall₂_map_left_iff, List.forall₂_map_right_iff, List.forall₂_same]
  exact fun e _ => ⟨rfl, .some rfl⟩

theorem returns_remote (f : Fields) :
    Option.Rel (Returns env) (writeRemote f) (writeRemote f) := by
  rw [writeRemote]
  split
  · exact .none
  · exact .some (reread_assignAll (.cons ⟨rfl, returns_text f.remoteIp⟩
      (.cons ⟨rfl, returns_text f.remoteUser⟩ .nil)))

theorem returns_strings {a : List String} (h : a.length < 2 ^ 31) :
    Returns env (.array (a.map .string)) (.array (a.map .string)) :=
  reread_strings (by omega)

/-- The value of a key of an object that is made by assignments comes back with the object. -/
theorem exists_rel {fields : List (String × Option (Json D))}
    (hnodup : (fields.map Prod.fst).Nodup) {j' : Json D}
    (h : Returns env (.object (Assoc.assignAll fields [])) j') {k : String}
    {o : Option (Json D)} (hk : (k, o) ∈ fields) : ∃ o', Option.Rel (Returns env) o o' := by
  cases o with
  | none => exact ⟨none, .none⟩
  | some v =>
      have hmem := (Assoc.mem_assignAll hnodup).mpr hk
      have hsorted := Assoc.sorted_assignAll fields Assoc.sorted_nil
      have hlookup := (Assoc.mem_iff_lookup hsorted).mp hmem
      obtain ⟨v', hv'⟩ := reread_member h hlookup
      exact ⟨some v', .some hv'⟩

theorem returns_resource (f : Fields) : Returns env (writeResource f) (writeResource f) :=
  reread_assignAll (.cons ⟨rfl, .some rfl⟩ (.cons ⟨rfl, returns_text _⟩ .nil))

/-- The envelope comes back if what it contains of other jobs and of a status does. -/
theorem returns_envelope {f : Fields} (hshort : f.arguments.length < 2 ^ 31)
    {on status : Option (Json D)} {v' : Json D} :
    Returns env (f.envelope on status) v' ↔
      ∃ on' status', Option.Rel (Returns env) on on' ∧
        Option.Rel (Returns env) status status' ∧ v' = f.envelope on' status' := by
  have hreturns : ∀ {on' status'}, Option.Rel (Returns env) on on' →
      Option.Rel (Returns env) status status' →
      Returns env (f.envelope on status) (f.envelope on' status') := by
    intro on' status' hon hstatus
    refine reread_assignAll ?_
    exact .cons ⟨rfl, .some rfl⟩ (.cons ⟨rfl, .some rfl⟩ (.cons ⟨rfl, .some rfl⟩
      (.cons ⟨rfl, .some rfl⟩ (.cons ⟨rfl, .some (returns_resource f)⟩
      (.cons ⟨rfl, returns_remote f⟩ (.cons ⟨rfl, returns_text _⟩
      (.cons ⟨rfl, returns_text _⟩ (.cons ⟨rfl, returns_text _⟩
      (.cons ⟨rfl, .some (returns_strings hshort)⟩ (.cons ⟨rfl, .some (returns_hash _)⟩
      (.cons ⟨rfl, .some (returns_hash _)⟩ (.cons ⟨rfl, .some (returns_hash _)⟩
      (.cons ⟨rfl, .some (returns_hash _)⟩ (.cons ⟨rfl, hon⟩ (.cons ⟨rfl, hstatus⟩
      (.cons ⟨rfl, returns_text _⟩ .nil))))))))))))))))
  constructor
  · intro h
    have hnodup := nodup_entries f (.array (f.arguments.map .string)) on status
    obtain ⟨on', hon⟩ := exists_rel hnodup h (k := "on") (o := on) (by simp [Fields.entries])
    obtain ⟨status', hstatus⟩ :=
      exists_rel hnodup h (k := "event_status") (o := status) (by simp [Fields.entries])
    exact ⟨on', status', hon, hstatus, h.unique (hreturns hon hstatus)⟩
  · rintro ⟨on', status', hon, hstatus, rfl⟩
    exact hreturns hon hstatus

theorem returns_handlerEntry {name : String} {v w : Json D} :
    Returns env (handlerEntry name v) w ↔ ∃ v', Returns env v v' ∧ w = handlerEntry name v' := by
  have hreturns : ∀ {v'}, Returns env v v' →
      Returns env (handlerEntry name v) (handlerEntry name v') := fun hv =>
    reread_assignAll (.cons ⟨rfl, .some (returns_string name)⟩ (.cons ⟨rfl, .some hv⟩ .nil))
  constructor
  · intro h
    obtain ⟨o', ho'⟩ := exists_rel (by simp) h (k := "envelope") (o := some v) (by simp)
    cases ho' with
    | some hv => exact ⟨_, hv, h.unique (hreturns hv)⟩
  · rintro ⟨v', hv, rfl⟩
    exact hreturns hv

/-- The entries of the events are different. -/
theorem nodup_events (handlers : Event → Option (Json D)) :
    (((Event.all.map event2str).zip (Event.all.map handlers)).map Prod.fst).Nodup := by
  simp [Event.all, event2str]

/-- The entries of the events come back one by one. -/
theorem returns_on {handlers : Event → Option (Json D)} {on' : Option (Json D)} :
    Option.Rel (Returns env) (writeOn (Event.all.map handlers)) on' ↔
      ∃ handlers' : Event → Option (Json D),
        (∀ e, Option.Rel (Returns env) (handlers e) (handlers' e)) ∧
        on' = writeOn (Event.all.map handlers') := by
  have hreturns : ∀ {handlers' : Event → Option (Json D)},
      (∀ e, Option.Rel (Returns env) (handlers e) (handlers' e)) →
      Option.Rel (Returns env) (writeOn (Event.all.map handlers))
        (writeOn (Event.all.map handlers')) := by
    intro handlers' h
    have hnone : (∀ o ∈ Event.all.map handlers, o.isNone = true) ↔
        ∀ o ∈ Event.all.map handlers', o.isNone = true := by
      simp only [List.forall_mem_map]
      refine forall₂_congr fun e _ => ?_
      have he := h e
      generalize handlers e = o, handlers' e = o' at he
      cases he with
      | none => rfl
      | some _ => simp
    rw [writeOn, writeOn, if_congr hnone rfl rfl]
    split
    · exact .none
    · refine .some (reread_assignAll ?_)
      exact .cons ⟨rfl, h _⟩ (.cons ⟨rfl, h _⟩ (.cons ⟨rfl, h _⟩ (.cons ⟨rfl, h _⟩
        (.cons ⟨rfl, h _⟩ (.cons ⟨rfl, h _⟩ (.cons ⟨rfl, h _⟩ .nil))))))
  constructor
  · intro h
    have hexists : ∀ e, ∃ o', Option.Rel (Returns env) (handlers e) o' := by
      intro e
      rw [writeOn] at h
      split at h
      · rename_i hnone
        have he := hnone (handlers e) (List.mem_map_of_mem (Event.mem_all e))
        rw [Option.isNone_iff_eq_none.mp he]
        exact ⟨none, .none⟩
      · cases h with
        | some hobject =>
            refine exists_rel (nodup_events handlers) hobject (k := event2str e) ?_
            cases e <;> simp [Event.all, event2str]
    choose handlers' hhandlers using hexists
    refine ⟨handlers', hhandlers, ?_⟩
    have hboth := hreturns hhandlers
    generalize writeOn (Event.all.map handlers) = o,
      writeOn (Event.all.map handlers') = o' at h hboth
    cases h with
    | none =>
        cases hboth with
        | none => rfl
    | some h₁ =>
        cases hboth with
        | some h₂ => rw [h₁.unique h₂]
  · rintro ⟨handlers', h, rfl⟩
    exact hreturns h

end Reread

section Written

variable {env : Env D} {st : Statuses S D}

/-- A function with a value at every event is the list of its values. -/
theorem mapM_events {f : Event → Except Failure (Option (Json D))}
    {ys : List (Option (Json D))} : Event.all.mapM f = .ok ys ↔
      ∃ handlers : Event → Option (Json D), (∀ e, f e = .ok (handlers e)) ∧
        ys = Event.all.map handlers := by
  rw [mapM_eq_ok]
  constructor
  · intro h
    have hexists : ∀ e ∈ Event.all, ∃ y, f e = .ok y := by
      generalize Event.all = events at h
      induction h with
      | nil => exact fun _ he => nomatch he
      | cons hvalue _ ih => exact List.forall_mem_cons.mpr ⟨⟨_, hvalue⟩, ih⟩
    choose handlers hhandlers using fun e => hexists e (Event.mem_all e)
    refine ⟨handlers, hhandlers, ?_⟩
    rw [← List.forall₂_eq_eq_eq, List.forall₂_map_right_iff]
    refine (h.flip).imp ?_
    intro y e hy
    rw [hhandlers e] at hy
    exact (Except.ok.inj hy).symm
  · rintro ⟨handlers, hhandlers, rfl⟩
    rw [List.forall₂_map_right_iff, List.forall₂_same]
    exact fun e _ => hhandlers e

theorem sentStatus_succ {n : ℕ} {s : Option S} {y' : Option (Json D)} :
    SentStatus env st (n + 1) s y' ↔
      ∃ y, SentStatus env st n s y ∧ Option.Rel (Returns env) y y' := by
  cases s with
  | none =>
      constructor
      · rintro rfl
        exact ⟨none, rfl, .none⟩
      · rintro ⟨y, rfl, h⟩
        cases h
        rfl
  | some s =>
      constructor
      · rintro ⟨text, v₀, v', htext, hv₀, hv', rfl⟩
        obtain ⟨v, hv, hreturns⟩ := Option.bind_eq_some_iff.mp hv'
        exact ⟨some v, ⟨text, v₀, v, htext, hv₀, hv, rfl⟩, .some hreturns⟩
      · rintro ⟨y, ⟨text, v₀, v, htext, hv₀, hv, rfl⟩, h⟩
        cases h with
        | some hreturns =>
            exact ⟨text, v₀, _, htext, hv₀, Option.bind_eq_some_iff.mpr ⟨v, hv, hreturns⟩, rfl⟩

/-- The envelope goes through one more text. -/
theorem sent_succ : ∀ (j : Job S) {n : ℕ} {v' : Json D}, Sent env st j (n + 1) v' ↔
    ∃ v, Sent env st j n v ∧ Returns env v v' := by
  refine Job.induct fun f events eventStatus ih => ?_
  have hhandler : ∀ e n y', SentHandler env st (events e) (n + 1) y' ↔
      ∃ y, SentHandler env st (events e) n y ∧ Option.Rel (Returns env) y y' := by
    intro e n y'
    cases he : events e with
    | none =>
        simp only [SentHandler]
        constructor
        · rintro rfl
          exact ⟨none, rfl, .none⟩
        · rintro ⟨y, rfl, h⟩
          cases h
          rfl
    | some j =>
        simp only [SentHandler, ih e j he]
        constructor
        · rintro ⟨v', ⟨v, hv, hreturns⟩, rfl⟩
          exact ⟨_, ⟨v, hv, rfl⟩, .some (returns_handlerEntry.mpr ⟨v', hreturns, rfl⟩)⟩
        · rintro ⟨y, ⟨v, hv, rfl⟩, h⟩
          cases h with
          | some hentry =>
              obtain ⟨v', hreturns, rfl⟩ := returns_handlerEntry.mp hentry
              exact ⟨v', ⟨v, hv, hreturns⟩, rfl⟩
  intro n v'
  simp only [Sent]
  constructor
  · rintro ⟨hshort, handlers', status', hhandlers, hstatus, rfl⟩
    choose handlers hsent hrel using fun e => (hhandler e _ _).mp (hhandlers e)
    obtain ⟨status, hstatus, hrelStatus⟩ := sentStatus_succ.mp hstatus
    exact ⟨_, ⟨hshort, handlers, status, hsent, hstatus, rfl⟩, (returns_envelope hshort).mpr
      ⟨_, status', returns_on.mpr ⟨handlers', hrel, rfl⟩, hrelStatus, rfl⟩⟩
  · rintro ⟨v, ⟨hshort, handlers, status, hsent, hstatus, rfl⟩, hreturns⟩
    obtain ⟨on', status', hon, hrelStatus, rfl⟩ := (returns_envelope hshort).mp hreturns
    obtain ⟨handlers', hrel, rfl⟩ := returns_on.mp hon
    exact ⟨hshort, handlers', status', fun e => (hhandler e _ _).mpr ⟨_, hsent e, hrel e⟩,
      sentStatus_succ.mpr ⟨status, hstatus, hrelStatus⟩, rfl⟩

theorem ordered_writeHash (h : Hash) : (writeHash h : Json D).Ordered := by
  apply ordered_assignAll
  intro k j hmem
  obtain ⟨e, -, he⟩ := List.mem_map.mp hmem
  cases he
  trivial

theorem ordered_writeText {v : String} {j : Json D} (h : some j = writeText v) :
    j.Ordered := by
  rw [writeText] at h
  split at h
  · cases h
  · cases h
    trivial

theorem ordered_writeRemote {f : Fields} {j : Json D} (h : some j = writeRemote f) :
    j.Ordered := by
  rw [writeRemote] at h
  split at h
  · cases h
  · cases h
    apply ordered_assignAll
    intro k v hmem
    simp only [List.mem_cons, List.not_mem_nil, or_false, Prod.mk.injEq] at hmem
    rcases hmem with ⟨-, hv⟩ | ⟨-, hv⟩
    · exact ordered_writeText hv
    · exact ordered_writeText hv

theorem ordered_writeResource (f : Fields) : (writeResource f : Json D).Ordered := by
  apply ordered_assignAll
  intro k v hmem
  simp only [List.mem_cons, List.not_mem_nil, or_false, Prod.mk.injEq,
    Option.some.injEq] at hmem
  rcases hmem with ⟨-, rfl⟩ | ⟨-, hv⟩
  · trivial
  · exact ordered_writeText hv

/-- An envelope has its keys in order if what it contains of other jobs and of a status
has. -/
theorem ordered_envelope (f : Fields) {on status : Option (Json D)}
    (hon : ∀ j, some j = on → j.Ordered) (hstatus : ∀ j, some j = status → j.Ordered) :
    (f.envelope on status).Ordered := by
  apply ordered_assignAll
  intro k v hmem
  simp only [Fields.entries, List.mem_cons, List.not_mem_nil, or_false, Prod.mk.injEq,
    Option.some.injEq] at hmem
  rcases hmem with ⟨-, rfl⟩ | ⟨-, rfl⟩ | ⟨-, rfl⟩ | ⟨-, rfl⟩ | ⟨-, rfl⟩ | ⟨-, hv⟩ | ⟨-, hv⟩ |
    ⟨-, hv⟩ | ⟨-, hv⟩ | ⟨-, rfl⟩ | ⟨-, rfl⟩ | ⟨-, rfl⟩ | ⟨-, rfl⟩ | ⟨-, rfl⟩ | ⟨-, hv⟩ |
    ⟨-, hv⟩ | ⟨-, hv⟩
  · trivial
  · trivial
  · trivial
  · trivial
  · exact ordered_writeResource f
  · exact ordered_writeRemote hv
  · exact ordered_writeText hv
  · exact ordered_writeText hv
  · exact ordered_writeText hv
  · exact ordered_strings _
  · exact ordered_writeHash _
  · exact ordered_writeHash _
  · exact ordered_writeHash _
  · exact ordered_writeHash _
  · exact hon v hv
  · exact hstatus v hv
  · exact ordered_writeText hv

theorem ordered_rereads {n : ℕ} {v v' : Json D} (h : v.Ordered)
    (hv : rereads env n v = some v') : v'.Ordered := by
  induction n generalizing v' with
  | zero =>
      cases hv
      exact h
  | succ n ih =>
      obtain ⟨v₁, hv₁, hreturns⟩ := Option.bind_eq_some_iff.mp hv
      exact (ih hv₁).reread hreturns

theorem ordered_parsed {text : Text} {v : Json D} (h : parsed env text = .ok v) :
    v.Ordered := by
  apply ordered_complete?
  rw [← value?_parsed env text, h]
  rfl

theorem ordered_sentStatus {n : ℕ} {s : Option S} {y : Option (Json D)}
    (h : SentStatus env st n s y) (v : Json D) (hv : some v = y) : v.Ordered := by
  cases s with
  | none =>
      rw [h] at hv
      cases hv
  | some s =>
      obtain ⟨text, v₀, v', htext, hv₀, hv', rfl⟩ := h
      cases hv
      exact ordered_rereads (ordered_parsed hv₀) hv'

/-- An envelope has its keys in order. -/
theorem ordered_sent : ∀ (j : Job S) {n : ℕ} {v : Json D}, Sent env st j n v → v.Ordered := by
  refine Job.induct fun f events eventStatus ih n v h => ?_
  obtain ⟨-, handlers, status, hhandlers, hstatus, rfl⟩ := h
  have hentry : ∀ e w, some w = handlers e → w.Ordered := by
    intro e w hw
    have he := hhandlers e
    cases hevent : events e with
    | none =>
        rw [hevent, SentHandler, ← hw] at he
        cases he
    | some j =>
        rw [hevent, SentHandler, ← hw] at he
        obtain ⟨v, hv, hvw⟩ := he
        cases hvw
        apply ordered_assignAll
        intro k u hmem
        simp only [List.mem_cons, List.not_mem_nil, or_false, Prod.mk.injEq,
          Option.some.injEq] at hmem
        rcases hmem with ⟨-, rfl⟩ | ⟨-, rfl⟩
        · trivial
        · exact ih e j hevent hv
  refine ordered_envelope f ?_ (ordered_sentStatus hstatus)
  intro w hw
  rw [writeOn] at hw
  split at hw
  · cases hw
  · cases hw
    apply ordered_assignAll
    intro k u hmem
    obtain ⟨e, -, he⟩ := List.mem_map.mp (List.of_mem_zip hmem).2
    exact hentry e u he.symm

theorem writeStatus_eq_ok {s : Option S} {y : Option (Json D)} :
    writeStatus env st s = .ok y ↔ SentStatus env st 0 s y := by
  cases s with
  | none =>
      simp [writeStatus, SentStatus, pure, Except.pure, eq_comm]
  | some s =>
      simp only [writeStatus, SentStatus, bind_eq_ok, rereads, Option.some.injEq]
      constructor
      · rintro ⟨text, htext, v, hv, hy⟩
        cases hy
        exact ⟨text, v, v, htext, hv, rfl, rfl⟩
      · rintro ⟨text, v, v', htext, hv, rfl, rfl⟩
        exact ⟨text, htext, v, hv, rfl⟩

theorem resent_eq_ok {v v' : Json D} (h : v.Ordered) :
    resent env v = .ok v' ↔ Returns env v v' := by
  rw [Returns, ← value?_resent h, value?_eq_some]

/-- `JobImpl::to_json` returns the envelope, or throws if there is none. -/
theorem toJson_eq_ok : ∀ (j : Job S) {v : Json D},
    toJson env st j = .ok v ↔ Sent env st j 0 v := by
  refine Job.induct fun f events eventStatus ih v => ?_
  have hhandler : ∀ e y, writeHandler env st (events e) = .ok y ↔
      SentHandler env st (events e) 1 y := by
    intro e y
    cases he : events e with
    | none =>
        simp [writeHandler, SentHandler, pure, Except.pure, eq_comm]
    | some j =>
        simp only [writeHandler, SentHandler, bind_eq_ok, ih e j he, sent_succ j]
        constructor
        · rintro ⟨v, hv, v', hresent, hy⟩
          cases hy
          exact ⟨v', ⟨v, hv, (resent_eq_ok (ordered_sent j hv)).mp hresent⟩, rfl⟩
        · rintro ⟨v', ⟨v, hv, hreturns⟩, rfl⟩
          exact ⟨v, hv, v', (resent_eq_ok (ordered_sent j hv)).mpr hreturns, rfl⟩
  simp only [toJson, Sent, bind_eq_ok, Status.writeArray_eq_ok, Status.mapM_pure, mapM_events,
    hhandler, writeStatus_eq_ok]
  constructor
  · rintro ⟨arguments, ⟨hshort, texts, htexts, rfl⟩, ys, ⟨handlers, hhandlers, rfl⟩, status,
      hstatus, hv⟩
    cases htexts
    cases hv
    exact ⟨hshort, handlers, status, hhandlers, hstatus, rfl⟩
  · rintro ⟨hshort, handlers, status, hhandlers, hstatus, rfl⟩
    exact ⟨_, ⟨hshort, _, rfl, rfl⟩, _, ⟨handlers, hhandlers, rfl⟩, status, hstatus, rfl⟩

/-- A job whose text is parsed. -/
theorem serialize_eq_ok {j : Job S} {text : Text} : j.serialize env st = .ok text ↔
    ∃ v d, Sent env st j 0 v ∧ generate env v = .ok d ∧ text = .document d := by
  simp only [Job.serialize, bind_eq_ok, toJson_eq_ok, Json.serialize]
  constructor
  · rintro ⟨v, hv, d, hd, htext⟩
    cases htext
    exact ⟨v, d, hv, hd, rfl⟩
  · rintro ⟨v, d, hv, hd, rfl⟩
    exact ⟨v, hv, d, hd, rfl⟩

end Written

end Jobs

end Gearbox
