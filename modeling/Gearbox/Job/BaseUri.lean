import Gearbox.Job.Caches
import Gearbox.Job.RoundTrip
import Gearbox.Refinement.Assigns

/-!
# The base uri of the manager

An envelope that is decoded makes its base uri the one of the manager. The handlers are decoded
on the same manager, before the base uri of the envelope is read, so that the envelope overwrites
what they left there. An envelope without a base uri overwrites nothing: the manager keeps the
base uri that was decoded last among the handlers.
-/

namespace Gearbox

namespace Jobs

open Json Refinement Config

variable {S D : Type}

section Uris

/-- The base uri of an envelope. -/
def ownUri (envelope : Json D) : Option String :=
  match envelope.member "base_uri" with
  | some (.string uri) => some uri
  | _ => none

mutual

/-- The base uris of an envelope and of its handlers, in the order in which they are decoded. -/
def baseUris (envelope : Json D) : List String :=
  (match _h : envelope.member "on" with
    | some (.object o) => handlerUris o
    | _ => []) ++ (ownUri envelope).toList
termination_by sizeOf envelope
decreasing_by
  have hsize := sizeOf_member _h
  simp only [object.sizeOf_spec] at hsize
  omega

/-- The base uris of some handlers. -/
def handlerUris : List (String × Json D) → List String
  | [] => []
  | (_, entry) :: rest => baseUris (nodeAt entry "envelope") ++ handlerUris rest
termination_by o => sizeOf o
decreasing_by
  · have hsize := sizeOf_nodeAt entry "envelope"
    simp only [List.cons.sizeOf_spec, Prod.mk.sizeOf_spec]
    omega
  · simp only [List.cons.sizeOf_spec, Prod.mk.sizeOf_spec]
    omega

end

/-- The base uris of the handlers of an envelope. -/
def onUris (envelope : Json D) : List String :=
  match envelope.member "on" with
  | some (.object o) => handlerUris o
  | _ => []

theorem baseUris_eq (envelope : Json D) :
    baseUris envelope = onUris envelope ++ (ownUri envelope).toList := by
  rw [baseUris, onUris]
  cases envelope.member "on" with
  | none => rfl
  | some v => cases v <;> rfl

end Uris

section Decoding

variable {sys : System D} {st : Statuses S D} {m : Manager}

theorem assigns_readBaseUri (envelope : Json D) (f : Fields) :
    Assigns Process.baseUri (ownUri envelope).toList (readBaseUri envelope f) := by
  rw [readBaseUri, ownUri]
  cases envelope.member "base_uri" with
  | none => exact assigns_pure f
  | some v =>
      cases v with
      | string uri =>
          have hset : Assigns Process.baseUri [uri]
              (modify fun s : Process D => { s with baseUri := uri } :
                Code (Process D) Failure Unit) :=
            assigns_modify fun _ => rfl
          exact hset.before fun _ => assigns_pure _
      | _ => exact assigns_throw _

theorem keeps_baseUri_fileSchema (schema uri : String) :
    Keeps (fun s => s.baseUri = uri) (fileSchema sys m schema) := by
  intro s h
  rw [fileSchema, outcome_answering]
  cases hcached : s.schemas (m.schemaFile schema) with
  | some found =>
      rw [outcome_loadSchema_some hcached]
      exact h
  | none =>
      rw [outcome_loadSchema_none hcached]
      exact h

theorem assigns_decodeRest (envelope : Json D) (f : Fields)
    (events : Event → Option (Job S)) :
    Assigns Process.baseUri (ownUri envelope).toList
      (decodeRest sys st m envelope f events) := by
  have hschema : ∀ f, Assigns Process.baseUri [] (getSchema sys m f) := by
    intro f
    exact assigns_of_keeps fun uri =>
      keeps_getSchema (fun schema => keeps_baseUri_fileSchema schema uri) f
  rw [decodeRest]
  refine (assigns_lift _).after fun f => (assigns_readBaseUri envelope f).before fun f => ?_
  refine (assigns_lift _).after fun f => (hschema f).after fun _ => ?_
  exact (assigns_lift _).after fun f => (assigns_lift _).after fun _ => assigns_pure _

mutual

/-- The decoding of an envelope assigns the base uris of the handlers, and then its own. -/
theorem assigns_decode (name : String) (envelope : Json D) :
    Assigns Process.baseUri (baseUris envelope) (decode sys st m name envelope) := by
  rw [decode_eq, baseUris_eq]
  refine (assigns_lift _).after fun f => (assigns_lift _).after fun f => ?_
  refine Assigns.bind ?_ fun events => assigns_decodeRest envelope f events
  rw [onUris]
  cases hon : envelope.member "on" with
  | none => exact assigns_pure _
  | some v =>
      cases v with
      | object o =>
          have hsize := sizeOf_member hon
          exact assigns_decodeHandlers o fun _ => none
      | _ => exact assigns_throw _
termination_by sizeOf envelope
decreasing_by
  simp only [object.sizeOf_spec] at hsize
  omega

theorem assigns_decodeHandlers (o : List (String × Json D)) (events : Event → Option (Job S)) :
    Assigns Process.baseUri (handlerUris o) (decodeHandlers sys st m o events) := by
  cases o with
  | nil =>
      rw [decodeHandlers, handlerUris]
      exact assigns_pure _
  | cons e rest =>
      obtain ⟨k, entry⟩ := e
      have hsize := sizeOf_nodeAt entry "envelope"
      rw [decodeHandlers, handlerUris]
      refine (assigns_lift _).after fun node => (assigns_lift _).after fun name => ?_
      refine (assigns_decode name (nodeAt entry "envelope")).bind fun j => ?_
      exact assigns_decodeHandlers rest _
termination_by sizeOf o
decreasing_by
  · simp only [List.cons.sizeOf_spec, Prod.mk.sizeOf_spec]
    omega
  · simp only [List.cons.sizeOf_spec, Prod.mk.sizeOf_spec]
    omega

end

/-- The condition under which a decoded job leaves no base uri of a handler behind: the envelope
has a base uri, or the last one of the handlers is the one that the manager has. -/
def Overwrites (envelope : Json D) (uri : String) : Prop :=
  (ownUri envelope).isSome ∨ (onUris envelope).getLast?.getD uri = uri

/-- A job that is decoded leaves the base uri of its envelope in the manager, or the one that was
there if the envelope has none, if and only if the handlers' base uris are overwritten. If the
decoding throws, then the base uri is one of the two as long as no handler has another one. -/
theorem baseUri_decode_iff (sys : System D) (st : Statuses S D) (m : Manager) (name : String)
    (envelope : Json D) (s : Process D) :
    (∀ j s', outcome (decode sys st m name envelope) s = (.ok j, s') →
      (s'.baseUri = (ownUri envelope).getD s.baseUri ↔ Overwrites envelope s.baseUri)) ∧
    ∀ e s', outcome (decode sys st m name envelope) s = (.error e, s') →
      (∀ uri ∈ onUris envelope, uri = s.baseUri ∨ ownUri envelope = some uri) →
      s'.baseUri = s.baseUri ∨ ownUri envelope = some s'.baseUri := by
  have hassigns : Assigns Process.baseUri (onUris envelope ++ (ownUri envelope).toList)
      (decode sys st m name envelope) :=
    baseUris_eq envelope ▸ assigns_decode name envelope
  constructor
  · intro j s' h
    rw [hassigns.of_ok h, afterAll_append, Overwrites]
    cases ownUri envelope with
    | none => simp [afterAll]
    | some uri => simp
  · intro e s' h hsame
    obtain ⟨done, hdone, hvalue⟩ := hassigns.of_error h
    rcases afterAll_mem done s.baseUri with hkept | hmem
    · exact .inl (hvalue.trans hkept)
    · rw [← hvalue] at hmem
      rcases List.mem_append.mp (hdone.subset hmem) with hon | hown
      · exact hsame _ hon
      · exact .inr (Option.mem_toList.mp hown)

end Decoding

section Samples

/-- The envelope of a handler with a base uri. -/
def loggerEnvelope : Json ℤ :=
  .object [("base_uri", .string "http://logger/log/v1")]

/-- The handler of an envelope, with its name. -/
def loggerEntry : Json ℤ :=
  .object [("envelope", loggerEnvelope), ("name", .string (jobName "get" "rm" "node" "v1"))]

/-- The envelope of a job whose end is handled by another job. -/
def loggedEnvelope (own : List (String × Json ℤ)) : Json ℤ :=
  .object (own ++ [("on", .object [("COMPLETED", loggerEntry)])])

/-- The envelope has a base uri and handlers at most. -/
structure Bare (envelope : Json ℤ) : Prop where
  type : ∀ f, readType envelope f = .ok f
  parts : ∀ f, readParts envelope f = .ok f
  baseUri : ∀ f s, ∃ f' s', outcome (readBaseUri envelope f) s = (.ok f', s')
  status : envelope.member "status" = none
  data : ∀ f, readData envelope f = .ok f
  eventStatus : envelope.member "event_status" = none

theorem bare_logger : Bare loggerEnvelope :=
  ⟨fun _ => rfl, fun _ => rfl, fun _ _ => ⟨_, _, rfl⟩, rfl, fun _ => rfl, rfl⟩

theorem bare_logged : Bare (loggedEnvelope []) :=
  ⟨fun _ => rfl, fun _ => rfl, fun _ _ => ⟨_, _, rfl⟩, rfl, fun _ => rfl, rfl⟩

theorem bare_logged_own : Bare (loggedEnvelope [("base_uri", .string "http://rm/rm/v1")]) :=
  ⟨fun _ => rfl, fun _ => rfl, fun _ _ => ⟨_, _, rfl⟩, rfl, fun _ => rfl, rfl⟩

theorem returns_getSchema (f : Fields) (s : Process ℤ) :
    ∃ r s', outcome (getSchema noFiles anyJob f) s = (.ok r, s') := by
  have hfile : ∀ schema (s : Process ℤ),
      ∃ r s', outcome (fileSchema noFiles anyJob schema) s = (.ok r, s') := by
    intro schema s
    rw [fileSchema, outcome_answering]
    cases hcached : s.schemas (anyJob.schemaFile schema) with
    | some found =>
        rw [outcome_loadSchema_some hcached]
        exact ⟨_, _, rfl⟩
    | none =>
        rw [outcome_loadSchema_none hcached]
        exact ⟨_, _, rfl⟩
  obtain ⟨own, s₁, hown⟩ := hfile (schemaName f) s
  rw [getSchema, outcome_bind_ok hown]
  cases own with
  | some schema => exact ⟨_, _, rfl⟩
  | none =>
      obtain ⟨shared, s₂, hshared⟩ := hfile (globalSchemaName f) s₁
      rw [outcome_bind_ok hshared]
      cases shared with
      | some schema => exact ⟨_, _, rfl⟩
      | none => exact ⟨_, _, rfl⟩

theorem Bare.returns {envelope : Json ℤ} (h : Bare envelope)
    (hon : ∀ s, ∃ events s', outcome (decodeOn noFiles noStatuses anyJob
      (envelope.member "on")) s = (.ok events, s')) (s : Process ℤ) :
    ∃ j s', outcome (decode noFiles noStatuses anyJob (jobName "get" "rm" "node" "v1")
      envelope) s = (.ok j, s') := by
  obtain ⟨f, hname⟩ := validName_get
  have hnamed : Fields.named (Fields.new .gearman) (jobName "get" "rm" "node" "v1") = .ok f :=
    hname
  obtain ⟨events, s₁, hevents⟩ := hon s
  obtain ⟨f', s₂, huri⟩ := h.baseUri f s₁
  obtain ⟨schema, s₃, hschema⟩ := returns_getSchema f' s₂
  rw [decode_eq, hnamed, outcome_bind_ok (outcome_lift _ _), h.type,
    outcome_bind_ok (outcome_lift _ _), outcome_bind_ok hevents, decodeRest, h.parts,
    outcome_bind_ok (outcome_lift _ _), outcome_bind_ok huri]
  simp only [readText, h.status, h.data, readEventStatus, h.eventStatus]
  exact ⟨_, _, outcome_bind_ok hschema⟩

theorem returns_logger (s : Process ℤ) : ∃ events s', outcome (decodeOn noFiles noStatuses
    anyJob ((loggedEnvelope []).member "on")) s = (.ok events, s') := by
  have hon : (loggedEnvelope []).member "on" = some (.object [("COMPLETED", loggerEntry)]) := rfl
  obtain ⟨j, s', hj⟩ := bare_logger.returns (fun s => ⟨_, s, rfl⟩) s
  have hlast : ∀ events, decodeHandlers noFiles noStatuses anyJob [] events = pure events :=
    fun events => by rw [decodeHandlers]
  rw [hon, decodeOn, decodeHandlers]
  refine ⟨Function.update (fun _ => none) .completed (some j), s', ?_⟩
  refine (outcome_bind_ok hj).trans ?_
  rw [hlast]
  rfl

theorem baseUri_own : ∃ j s', outcome (decode noFiles noStatuses anyJob
      (jobName "get" "rm" "node" "v1")
      (loggedEnvelope [("base_uri", .string "http://rm/rm/v1")])) Process.start = (.ok j, s') ∧
    s'.baseUri = "http://rm/rm/v1" := by
  obtain ⟨j, s', h⟩ := bare_logged_own.returns returns_logger Process.start
  exact ⟨j, s', h, ((baseUri_decode_iff _ _ _ _ _ _).1 j s' h).mpr (.inl rfl)⟩

/-- The base uri of the handler stays in the manager. -/
theorem not_baseUri_own : ∃ j s', outcome (decode noFiles noStatuses anyJob
      (jobName "get" "rm" "node" "v1") (loggedEnvelope [])) Process.start = (.ok j, s') ∧
    s'.baseUri ≠ (ownUri (loggedEnvelope [])).getD (Process.start : Process ℤ).baseUri := by
  obtain ⟨j, s', h⟩ := bare_logged.returns returns_logger Process.start
  refine ⟨j, s', h, ?_⟩
  have huris : baseUris (loggedEnvelope []) = ["http://logger/log/v1"] := by
    have hlogger : baseUris loggerEnvelope = ["http://logger/log/v1"] := baseUris_eq _
    have hon : onUris (loggedEnvelope []) = handlerUris [("COMPLETED", loggerEntry)] := rfl
    have hnode : nodeAt loggerEntry "envelope" = loggerEnvelope := rfl
    have hown : ownUri (loggedEnvelope []) = none := rfl
    rw [baseUris_eq, hon, hown, handlerUris, handlerUris, hnode, hlogger]
    rfl
  rw [(assigns_decode _ _).of_ok h, huris]
  decide

end Samples

end Jobs

end Gearbox
