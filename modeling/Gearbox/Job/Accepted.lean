import Gearbox.Job.Envelope
import Gearbox.Job.Request
import Gearbox.Json.Accept

/-!
# The schema of envelopes

A worker parses the envelope of a job with the schema `job-envelope.js`, which wants a version
that is a number after a `v`. The name of a job is accepted by `set_job_from_name` if only the
first character after the `v` is a digit. The envelopes of the handlers are objects of any kind
for the schema.
-/

namespace Gearbox

namespace Jobs

open Json Refinement Texts

variable {S D : Type}

section Schema

/-- A property that is a uri and may be missing. -/
def uriSchema : Json D :=
  .object [("format", .string "uri"), ("optional", .bool true), ("type", .string "string")]

/-- A property that is a text and may be missing. -/
def optionalText : Json D :=
  .object [("optional", .bool true), ("type", .string "string")]

/-- A property that is a text. -/
def requiredText : Json D :=
  .object [("type", .string "string")]

/-- A property that has texts at any keys and may be missing. -/
def optionalTexts : Json D :=
  .object [("additionalProperties", requiredText), ("optional", .bool true),
    ("type", .string "object")]

/-- The properties of a handler. -/
def handlerProperties : List (String × Json D) :=
  [("envelope", .object [("type", .string "object")]), ("name", requiredText)]

/-- The schema of a handler. -/
def handlerSchema : Json D :=
  .object [("additionalProperties", .bool false), ("optional", .bool true),
    ("properties", .object handlerProperties), ("type", .string "object")]

/-- The events that the schema knows. -/
def onProperties : List (String × Json D) :=
  [("CANCELLED", handlerSchema), ("COMPLETED", handlerSchema), ("FAILED", handlerSchema),
    ("STARTED", handlerSchema), ("STOPPED", handlerSchema), ("SUCCEEDED", handlerSchema)]

def onSchema : Json D :=
  .object [("additionalProperties", .bool false), ("optional", .bool true),
    ("properties", .object onProperties), ("type", .string "object")]

def resourceProperties : List (String × Json D) :=
  [("name", optionalText), ("type", requiredText)]

def resourceSchema : Json D :=
  .object [("additionalProperties", .bool false), ("properties", .object resourceProperties),
    ("type", .string "object")]

def remoteSchema : Json D :=
  .object [("optional", .bool true), ("properties", .object [
      ("ip", .object [("format", .string "ipv4"), ("optional", .bool true),
        ("type", .string "string")]),
      ("user", optionalText)]), ("type", .string "object")]

/-- The pattern of the version. -/
def versionPattern : String :=
  "^v\\d+$"

/-- The properties of `job-envelope.js`. -/
def envelopeProperties : List (String × Json D) :=
  [("arguments", .object [("default", .array []), ("optional", .bool true),
      ("type", .string "array")]),
    ("base_uri", uriSchema),
    ("component", requiredText),
    ("content", optionalText),
    ("environ", optionalTexts),
    ("event_status", .object [("optional", .bool true), ("type", .string "object")]),
    ("headers", optionalTexts),
    ("job_type", .object [("enum", .array [.string "sync", .string "async"]),
      ("type", .string "string")]),
    ("matrix_arguments", .object [("default", .object []), ("optional", .bool true),
      ("type", .string "object")]),
    ("on", onSchema),
    ("operation", .object [("options", .array [.object [("value", .string "get")],
        .object [("value", .string "delete")], .object [("value", .string "update")],
        .object [("value", .string "create")]]), ("type", .string "string")]),
    ("parent_uri", uriSchema),
    ("query_params", optionalTexts),
    ("remote", remoteSchema),
    ("resource", resourceSchema),
    ("status", optionalText),
    ("version", .object [("pattern", .string versionPattern), ("type", .string "string")])]

/-- `job-envelope.js` -/
def envelopeSchema : Json D :=
  .object [("additionalProperties", .bool false),
    ("properties", .object envelopeProperties), ("type", .string "object")]

/-- The text of the job is written, and a parse with the schema accepts it. -/
def Accepted (env : Env D) (st : Statuses S D) (j : Job S) : Prop :=
  ∃ d, j.serialize env st = .ok (.document d) ∧ (streamed env envelopeSchema d).isSome

end Schema

section Values

variable {env : Env D} {order : Order D}

/-- The texts that match the pattern of the version. -/
def isVersionNumber (v : String) : Bool :=
  match v.toList with
  | 'v' :: digits => digits ≠ [] && digits.all Char.isDigit
  | _ => false

/-- The uri is left out, or it has the format of the schema. -/
def SuitableUri (env : Env D) (uri : String) : Prop :=
  uri = "" ∨ ∀ checker, env.formats "uri" = some checker → checker uri

/-- The value of a key is accepted. -/
def Suits (env : Env D) (k : String) (v : Json D) : Prop :=
  ∃ c, envelopeSchema.childKey k = some c ∧ Allows env (streaming env) c v

theorem suits_iff {k : String} {v c : Json D} (h : envelopeSchema.childKey k = some c) :
    Suits env k v ↔ Allows env (streaming env) c v := by
  simp [Suits, h]

theorem suits_text (hdefault : env.defaultFormat = "") {k v : String}
    (hk : k ∈ ["operation", "component", "status", "content"]) : Suits env k (.string v) := by
  simp only [List.mem_cons, List.not_mem_nil, or_false] at hk
  rcases hk with rfl | rfl | rfl | rfl
  · exact ⟨_, rfl, allows_text regular_streaming hdefault ⟨rfl, rfl, by decide⟩
      (by simp [member, Assoc.lookup_cons_eq]) v⟩
  · exact ⟨_, rfl, allows_text regular_streaming hdefault ⟨rfl, rfl, by decide⟩
      (by simp [requiredText, member, Assoc.lookup_cons_eq]) v⟩
  · exact ⟨_, rfl, allows_text regular_streaming hdefault ⟨rfl, rfl, by decide⟩
      (by simp [optionalText, member, Assoc.lookup_cons_eq]) v⟩
  · exact ⟨_, rfl, allows_text regular_streaming hdefault ⟨rfl, rfl, by decide⟩
      (by simp [optionalText, member, Assoc.lookup_cons_eq]) v⟩

theorem suits_version (hdefault : env.defaultFormat = "")
    (hregex : env.regex versionPattern = some isVersionNumber) (v : String) :
    Suits env "version" (.string v) ↔ isVersionNumber v := by
  have hpattern : validPattern env onErrorThrow (.object [("pattern", .string versionPattern),
      ("type", .string "string")]) (.string v) = .ok true ↔ isVersionNumber v := by
    simp only [validPattern, member, Assoc.lookup_cons_eq, ↓reduceIte, asString, ok_bind, hregex]
    exact ite_onErrorThrow
  rw [suits_iff rfl, allows_string regular_streaming ⟨rfl, rfl, by decide⟩
    (by simp [member, Assoc.lookup_cons_eq]), validFormat_of_none hdefault rfl, hpattern,
    validEnum_of_none rfl]
  simp

theorem suits_jobType (hdefault : env.defaultFormat = "") (t : JobType) :
    Suits env "job_type" (.string (if t = .sync then "sync" else "async")) := by
  have htexts : (if t = .sync then "sync" else "async") ∈ ["sync", "async"] := by
    cases t <;> decide
  rw [suits_iff rfl, allows_string regular_streaming ⟨rfl, rfl, by decide⟩
    (by simp [member, Assoc.lookup_cons_eq]), validFormat_of_none hdefault rfl,
    validPattern_of_none rfl]
  exact ⟨rfl, rfl, (validEnum_eq_ok (by decide) rfl).mpr htexts⟩

theorem suits_uri {k v : String} (hk : k = "base_uri" ∨ k = "parent_uri") :
    Suits env k (.string v) ↔ ∀ checker, env.formats "uri" = some checker → checker v := by
  rcases hk with rfl | rfl
  · exact (suits_iff rfl).trans (allows_format (by decide) regular_streaming
      ⟨rfl, rfl, by decide⟩ rfl (by simp [uriSchema, member, Assoc.lookup_cons_eq]) v)
  · exact (suits_iff rfl).trans (allows_format (by decide) regular_streaming
      ⟨rfl, rfl, by decide⟩ rfl (by simp [uriSchema, member, Assoc.lookup_cons_eq]) v)

theorem suits_arguments (hdefault : env.defaultFormat = "") {texts : List String}
    (hlength : texts.length < 2 ^ 31) :
    Suits env "arguments" (.array (texts.map .string)) := by
  refine ⟨_, rfl, (allows_array regular_streaming (t := "array") ⟨rfl, rfl, by decide⟩ rfl rfl
    (fun _ => rfl) ?_).mpr ⟨by decide, fun j _ => allows_any env hdefault j⟩⟩
  rw [List.length_map]
  omega

/-- An object with texts only, for a schema that accepts texts at every key. -/
theorem allows_hash {s : Json D} (h : OneType s "object")
    (hprops : s.member "properties" = none)
    (htexts : ∀ k v, ∃ c, s.childKey k = some c ∧ Allows env (streaming env) c (.string v))
    (hash : Hash) : Allows env (streaming env) s (writeHash hash) := by
  have hvalues : ∀ e ∈ Assoc.assignAll
      (hash.entries.map fun e => (e.1, some (string e.2 : Json D))) [], ∃ v, e.2 = .string v := by
    refine Assoc.forall_assignAll (P := fun j : Json D => ∃ v, j = .string v) ?_
    intro k j hmem
    obtain ⟨e, -, he⟩ := List.mem_map.mp hmem
    cases he
    exact ⟨e.2, rfl⟩
  refine (allows_open regular_streaming h hprops).mpr ⟨by decide, ?_⟩
  rintro ⟨k, j⟩ he
  obtain ⟨v, rfl⟩ := hvalues _ he
  exact htexts k v

theorem suits_hash (hdefault : env.defaultFormat = "") {k : String} (hash : Hash)
    (hk : k ∈ ["headers", "environ", "query_params", "matrix_arguments"]) :
    Suits env k (writeHash hash) := by
  have htexts : Allows env (streaming env) optionalTexts (writeHash hash) := by
    refine allows_hash ⟨rfl, rfl, by decide⟩ rfl (fun k v => ⟨requiredText, rfl, ?_⟩) hash
    exact allows_text regular_streaming hdefault ⟨rfl, rfl, by decide⟩
      (by simp [requiredText, member, Assoc.lookup_cons_eq]) v
  simp only [List.mem_cons, List.not_mem_nil, or_false] at hk
  rcases hk with rfl | rfl | rfl | rfl
  · exact ⟨_, rfl, htexts⟩
  · exact ⟨_, rfl, htexts⟩
  · exact ⟨_, rfl, htexts⟩
  · exact ⟨_, rfl, allows_hash ⟨rfl, rfl, by decide⟩ rfl
      (fun k v => ⟨anySchema, rfl, allows_any env hdefault _⟩) hash⟩

theorem suits_resource (hdefault : env.defaultFormat = "") (f : Fields) :
    Suits env "resource" (writeResource f) := by
  have hundemanding : ∀ keys, Undemanding (resourceProperties : List (String × Json D)) keys := by
    refine fun keys => undemanding_of_forall ?_ ?_
    · rw [Assoc.Sorted]
      simp only [resourceProperties, List.map_cons, List.map_nil]
      decide
    · simp [resourceProperties, optionalText, requiredText, member, Assoc.lookup_cons_eq]
  refine ⟨_, rfl, (allows_assignAll regular_streaming (t := "object") ⟨rfl, rfl, by decide⟩ rfl
    (by simp) (hundemanding _)).mpr ⟨by decide, ?_, ?_⟩⟩
  · intro k v hmem
    simp only [List.mem_cons, List.not_mem_nil, or_false, Prod.mk.injEq,
      Option.some.injEq] at hmem
    rcases hmem with ⟨rfl, rfl⟩ | ⟨rfl, hv⟩
    · exact ⟨_, rfl, allows_text regular_streaming hdefault ⟨rfl, rfl, by decide⟩
        (by simp [requiredText, member, Assoc.lookup_cons_eq]) _⟩
    · rw [writeText] at hv
      split at hv
      · cases hv
      · cases hv
        exact ⟨_, rfl, allows_text regular_streaming hdefault ⟨rfl, rfl, by decide⟩
          (by simp [optionalText, member, Assoc.lookup_cons_eq]) _⟩
  · simp [resourceProperties, optionalText, requiredText, member, Assoc.lookup_cons_eq]

/-- An entry with an object as envelope is what the schema wants. -/
theorem allows_handlerEntry (hdefault : env.defaultFormat = "") (name : String)
    (o : List (String × Json D)) :
    Allows env (streaming env) handlerSchema (handlerEntry name (.object o)) := by
  have hundemanding : ∀ keys, Undemanding (handlerProperties : List (String × Json D)) keys := by
    refine fun keys => undemanding_of_forall ?_ ?_
    · rw [Assoc.Sorted]
      simp only [handlerProperties, List.map_cons, List.map_nil]
      decide
    · simp [handlerProperties, requiredText, member, Assoc.lookup_cons_eq]
  refine (allows_assignAll regular_streaming (t := "object") ⟨rfl, rfl, by decide⟩ rfl
    (by simp) (hundemanding _)).mpr ⟨by decide, ?_, ?_⟩
  · intro k v hmem
    simp only [List.mem_cons, List.not_mem_nil, or_false, Prod.mk.injEq,
      Option.some.injEq] at hmem
    rcases hmem with ⟨rfl, rfl⟩ | ⟨rfl, rfl⟩
    · exact ⟨_, rfl, allows_text regular_streaming hdefault ⟨rfl, rfl, by decide⟩
        (by simp [requiredText, member, Assoc.lookup_cons_eq]) _⟩
    · exact ⟨_, rfl, (allows_open regular_streaming (t := "object") ⟨rfl, rfl, by decide⟩
        rfl).mpr ⟨by decide, fun e _ => ⟨_, rfl, allows_any env hdefault _⟩⟩⟩
  · simp [handlerProperties, requiredText, member, Assoc.lookup_cons_eq]

theorem suits_on (hdefault : env.defaultFormat = "") {handlers : Event → Option (Json D)}
    (hunknown : handlers .unknown = none)
    (hentry : ∀ e y, handlers e = some y → ∃ name o, y = handlerEntry name (.object o))
    (v : Json D) (hv : v ∈ writeOn (Event.all.map handlers)) : Suits env "on" v := by
  have hundemanding : ∀ keys, Undemanding (onProperties : List (String × Json D)) keys := by
    refine fun keys => undemanding_of_forall ?_ ?_
    · rw [Assoc.Sorted]
      simp only [onProperties, List.map_cons, List.map_nil]
      decide
    · simp [onProperties, handlerSchema, member, Assoc.lookup_cons_eq]
  have hevent : ∀ e, e ≠ .unknown → onSchema.childKey (event2str e) =
      some (handlerSchema : Json D) := by
    intro e he
    cases e with
    | unknown => exact absurd rfl he
    | _ => rfl
  rw [writeOn, Option.mem_def] at hv
  split at hv
  · cases hv
  · cases hv
    refine ⟨_, rfl, (allows_assignAll regular_streaming (t := "object") ⟨rfl, rfl, by decide⟩
      rfl (nodup_events handlers) (hundemanding _)).mpr ⟨by decide, ?_, ?_⟩⟩
    · intro k y hmem
      rw [List.zip_map', List.mem_map] at hmem
      obtain ⟨e, -, he⟩ := hmem
      obtain ⟨rfl, hy⟩ := Prod.mk.inj he
      obtain ⟨name, o, rfl⟩ := hentry e y hy
      refine ⟨handlerSchema, hevent e ?_, allows_handlerEntry hdefault name o⟩
      rintro rfl
      rw [hunknown] at hy
      cases hy
    · simp [onProperties, handlerSchema, member, Assoc.lookup_cons_eq]

end Values

/-- A property of every job of a tree of handlers. -/
inductive Job.All (P : Fields → Prop) : Job S → Prop where
  | mk {f : Fields} {events : Event → Option (Job S)} {eventStatus : Option S} (fields : P f)
      (handlers : ∀ e h, events e = some h → All P h) : All P (.mk f events eventStatus)

/-- A job as the manager hands it out for a name, with other data and with handlers that are
such jobs. -/
inductive Handed (env : Env D) : Job S → Prop where
  | mk {m : Manager} {baseUri name : String} {f : Fields} (known : ∀ name, m.known name)
      (base : SuitableUri env baseUri) (parent : SuitableUri env m.parentUri)
      (job : newJob m baseUri name = .ok f) (type : JobType) (content : String)
      (arguments : List String) (matrixArguments queryParams headers environ : Hash)
      {events : Event → Option (Job S)} (named : events .unknown = none)
      (handlers : ∀ e h, events e = some h → Handed env h) :
      Handed env (.mk { f with
        type := type
        content := content
        arguments := arguments
        matrixArguments := matrixArguments
        queryParams := queryParams
        headers := headers
        environ := environ } events none)

/-- The arguments of a job can be counted. -/
def Fields.Short (f : Fields) : Prop :=
  f.arguments.length < 2 ^ 31

section Handed

variable {env : Env D} {st : Statuses S D}

/-- What `JobManager::job` sets. -/
structure Fields.New (env : Env D) (f : Fields) : Prop where
  remoteIp : f.remoteIp = ""
  remoteUser : f.remoteUser = ""
  baseUri : SuitableUri env f.baseUri
  parentUri : SuitableUri env f.parentUri
  version : f.version =
    if "://".toList <:+: f.name.toList then "" else String.ofList (afterLast '_' f.name.toList)

/-- A name leaves all but its parts as it is. -/
theorem setJobFromName_eq {f f' : Fields} {name : String} (h : setJobFromName f name = .ok f') :
    ∃ op component resource, f' = { f with
      version := String.ofList (afterLast '_' name.toList)
      operation := op
      component := component
      resourceType := resource } := by
  rw [setJobFromName] at h
  split at h
  · split at h
    · cases h
    · simp only at h
      split at h
      · split at h
        · cases h
        · split at h
          · cases h
          · cases h
            exact ⟨_, _, _, rfl⟩
      · cases h
  · cases h

theorem newJob_eq {m : Manager} {baseUri name : String} {f : Fields}
    (hbase : SuitableUri env baseUri) (hparent : SuitableUri env m.parentUri)
    (h : newJob m baseUri name = .ok f) : f.New env ∧ f.name = name := by
  rw [newJob, Fields.named] at h
  split at h
  · split at h
    · rename_i huri
      cases h
      exact ⟨⟨rfl, rfl, hbase, hparent, (if_pos huri).symm⟩, rfl⟩
    · rename_i huri
      obtain ⟨op, component, resource, rfl⟩ := setJobFromName_eq h
      exact ⟨⟨rfl, rfl, hbase, hparent, (if_neg huri).symm⟩, rfl⟩
  · cases h

/-- A handed job has an envelope if the arguments of all jobs can be counted. -/
theorem exists_sent {j : Job S} (h : Handed env j) (n : ℕ) :
    (∃ v, Sent env st j n v) ↔ j.All Fields.Short := by
  induction h generalizing n with
  | mk known base parent job type content arguments matrix query headers environ named _ ih =>
      rename_i events _
      have hhandler : ∀ e n, (∃ y, SentHandler env st (events e) n y) ↔
          ∀ h, events e = some h → h.All Fields.Short := by
        intro e n
        cases he : events e with
        | none => simp [SentHandler]
        | some h =>
            simp only [SentHandler, Option.some.injEq, forall_eq', ← ih e h he n]
            constructor
            · rintro ⟨y, v, hv, -⟩
              exact ⟨v, hv⟩
            · rintro ⟨v, hv⟩
              exact ⟨_, v, hv, rfl⟩
      simp only [Sent]
      constructor
      · rintro ⟨v, hshort, handlers, status, hsent, -⟩
        exact .mk hshort fun e h he => (hhandler e (n + 1)).mp ⟨_, hsent e⟩ h he
      · rintro ⟨hshort, hall⟩
        choose handlers hsent using fun e => (hhandler e (n + 1)).mpr (hall e)
        exact ⟨_, hshort, handlers, none, hsent, rfl, rfl⟩

/-- The parser reads the envelope that was through one text, and checks it. -/
theorem accepted_iff_allows {j : Job S} : Accepted env st j ↔ ∃ v, Sent env st j 1 v ∧
    Allows env.throwing (streaming env.throwing) envelopeSchema v := by
  have hread : ∀ {v : Json D} {d : Doc}, Sent env st j 0 v → generate env v = .ok d →
      read env.throwing none d = reread env v := by
    intro v d hv hd
    rw [← read_generate (ordered_sent j hv), hd]
    rfl
  simp only [Accepted, serialize_eq_ok, streamed_eq_read, read_some, sent_succ]
  constructor
  · rintro ⟨d, ⟨v, d', hv, hd, hdocument⟩, hsome⟩
    cases hdocument
    rw [hread hv hd] at hsome
    cases hreturns : reread env v with
    | none =>
        rw [hreturns] at hsome
        cases hsome
    | some v' =>
        rw [hreturns] at hsome
        exact ⟨v', ⟨v, hv, hreturns⟩, hsome⟩
  · rintro ⟨v', ⟨v, hv, hreturns⟩, hallows⟩
    have hgenerate : (value? (generate env v)).bind (read env.throwing none) = reread env v :=
      read_generate (ordered_sent j hv)
    rw [hreturns] at hgenerate
    obtain ⟨d, hd, -⟩ := Option.bind_eq_some_iff.mp hgenerate
    have hok := value?_eq_some.mp hd
    refine ⟨d, ⟨v, d, hv, hok, rfl⟩, ?_⟩
    rw [hread hv hok, hreturns]
    exact hallows

theorem undemanding_envelope {keys : List String} (harguments : "arguments" ∈ keys)
    (hmatrix : "matrix_arguments" ∈ keys) :
    Undemanding (envelopeProperties : List (String × Json D)) keys where
  sorted := by
    rw [Assoc.Sorted]
    simp only [envelopeProperties, List.map_cons, List.map_nil]
    decide
  default := by
    simp [envelopeProperties, uriSchema, requiredText, optionalText, optionalTexts, onSchema,
      resourceSchema, remoteSchema, member, Assoc.lookup_cons_eq, harguments, hmatrix]
  requires := by
    simp [envelopeProperties, uriSchema, requiredText, optionalText, optionalTexts, onSchema,
      resourceSchema, remoteSchema, member, Assoc.lookup_cons_eq]
  optional := by
    simp [envelopeProperties, uriSchema, requiredText, optionalText, optionalTexts, onSchema,
      resourceSchema, remoteSchema, member, Assoc.lookup_cons_eq]

theorem forall_writeText {text : String} {P : Json D → Prop} :
    (∀ v ∈ writeText text, P v) ↔ (text ≠ "" → P (.string text)) := by
  rw [writeText, ← ite_not]
  exact forall_mem_ite

/-- The schema accepts the envelope of a new job if and only if it accepts the version. -/
theorem allows_envelope (hdefault : env.defaultFormat = "")
    (hregex : env.regex versionPattern = some isVersionNumber) {f : Fields}
    (hnew : f.New env) (hshort : f.Short) {on : Option (Json D)}
    (hon : ∀ v ∈ on, Suits env "on" v) :
    Allows env (streaming env) envelopeSchema (f.envelope on none) ↔
      isVersionNumber f.version := by
  have hkeys := fun k => Assoc.mem_keys_assignAll (k := k)
    (nodup_entries f (.array (f.arguments.map .string)) on none)
  have hrequired : ∀ e ∈ (envelopeProperties : List (String × Json D)),
      e.2.member "optional" = none →
        ∃ v, (e.1, some v) ∈ f.entries (.array (f.arguments.map .string)) on none := by
    simp [envelopeProperties, uriSchema, requiredText, optionalText, optionalTexts, onSchema,
      resourceSchema, remoteSchema, member, Assoc.lookup_cons_eq, Fields.entries]
  have huri : ∀ {k uri : String}, (k = "base_uri" ∨ k = "parent_uri") → SuitableUri env uri →
      ∀ v ∈ writeText uri, Suits env k v := by
    intro k uri hk hsuitable
    rw [forall_writeText, suits_uri hk]
    exact fun hne => hsuitable.resolve_left hne
  have hremote : writeRemote f = (none : Option (Json D)) := by
    rw [writeRemote, if_pos ⟨hnew.remoteIp, hnew.remoteUser⟩]
  rw [Fields.envelope,
    allows_assignAll (t := "object") regular_streaming ⟨rfl, rfl, by decide⟩ rfl
      (nodup_entries _ _ _ _) (undemanding_envelope ((hkeys _).mpr (by simp [Fields.entries]))
      ((hkeys _).mpr (by simp [Fields.entries]))),
    and_iff_right (by decide), and_iff_left hrequired]
  change (∀ k v, _ → Suits env k v) ↔ _
  rw [forall_some]
  have hbase := huri (.inl rfl) hnew.baseUri
  have hparent := huri (.inr rfl) hnew.parentUri
  have htext : ∀ {k : String}, k ∈ ["operation", "component", "status", "content"] →
      ∀ text, ∀ v ∈ writeText text, Suits env k v := by
    intro k hk text
    rw [forall_writeText]
    exact fun _ => suits_text hdefault hk
  simp (disch := simp) only [Fields.entries, List.forall_mem_cons, Option.mem_some_iff,
    forall_eq', suits_version hdefault hregex, suits_jobType hdefault, suits_text hdefault,
    suits_resource hdefault, hremote, suits_arguments hdefault hshort, suits_hash hdefault,
    Option.not_mem_none, false_implies, implies_true, List.not_mem_nil, true_and, and_true]
  exact and_iff_left ⟨hbase, hparent, htext (by simp) _, hon, htext (by simp) _⟩

/-- The text after the last `_` of the name is a `v` and a number, and the name is not a
uri. -/
def Versioned (name : String) : Prop :=
  ¬ "://".toList <:+: name.toList ∧
    isVersionNumber (String.ofList (afterLast '_' name.toList))

theorem versioned_iff {f : Fields} (h : f.New env) :
    Versioned f.name ↔ isVersionNumber f.version := by
  rw [h.version, Versioned]
  by_cases huri : "://".toList <:+: f.name.toList
  · rw [if_pos huri]
    constructor
    · exact fun hversioned => absurd huri hversioned.1
    · exact fun hversion => nomatch hversion
  · rw [if_neg huri]
    exact and_iff_right huri

/-- A job that was handed out has the fields of a new job. -/
theorem Handed.new {j : Job S} (h : Handed env j) : j.fields.New env := by
  cases h with
  | mk known base parent job type content arguments matrix query headers environ named _ =>
      obtain ⟨hnew, -⟩ := newJob_eq base parent job
      exact ⟨hnew.remoteIp, hnew.remoteUser, hnew.baseUri, hnew.parentUri, hnew.version⟩

/-- The envelope of a job that was handed out is accepted if and only if there is one and the
version is a number. -/
theorem accepted_iff_version (hdefault : env.defaultFormat = "")
    (hregex : env.regex versionPattern = some isVersionNumber) {j : Job S}
    (h : Handed env j) : Accepted env st j ↔
      isVersionNumber j.fields.version ∧ ∃ v, Sent env st j 1 v := by
  have hnew : j.fields.New env.throwing := ⟨h.new.remoteIp, h.new.remoteUser, h.new.baseUri,
    h.new.parentUri, h.new.version⟩
  have hdefault' : env.throwing.defaultFormat = "" := hdefault
  rw [accepted_iff_allows, ← exists_and_left]
  refine exists_congr fun v => ?_
  rw [and_comm]
  refine and_congr_left fun hv => ?_
  cases h with
  | mk known base parent job type content arguments matrix query headers environ named _ =>
      rename_i events _
      obtain ⟨hshort, handlers, status, hsent, hstatus, rfl⟩ := hv
      cases hstatus
      refine allows_envelope hdefault' hregex hnew hshort (suits_on hdefault' ?_ ?_)
      · have hunknown := hsent .unknown
        rwa [named] at hunknown
      · intro e y hy
        have he := hsent e
        cases hevent : events e with
        | none =>
            rw [hevent, SentHandler, hy] at he
            cases he
        | some h =>
            rw [hevent, SentHandler, hy] at he
            obtain ⟨v, hv, hentry⟩ := he
            cases hentry
            cases h with
            | mk g events' status' =>
                obtain ⟨-, _, _, _, _, rfl⟩ := hv
                exact ⟨_, _, rfl⟩

/-- The envelope of a job that was handed out is accepted if and only if the version in its
name is a number, and the arguments of the job and of all its handlers can be counted. -/
theorem enveloped_iff (hdefault : env.defaultFormat = "")
    (hregex : env.regex versionPattern = some isVersionNumber) {j : Job S}
    (h : Handed env j) :
    Accepted env st j ↔ Versioned j.fields.name ∧ j.All Fields.Short := by
  rw [accepted_iff_version hdefault hregex h, versioned_iff h.new]
  exact and_congr_right fun _ => exists_sent h 1

end Handed

section Samples

/-- An environment with the pattern of the version. -/
def patterns : Env ℤ :=
  { wholeNumbers with
    regex := fun pattern => if pattern = versionPattern then some isVersionNumber else none }

/-- A process without statuses. -/
def noStatuses : Statuses Empty ℤ where
  serialize := Empty.elim
  fetch := fun _ => throw (.std "no status")

/-- The fields of a new job for a node. -/
def nodeFields (method version : String) : Fields :=
  { Fields.new .gearman with
    name := jobName method "rm" "node" version
    baseUri := "http://localhost/rm/v1"
    version := version
    operation := .of method
    component := "rm"
    resourceType := "node" }

/-- A job for a node with one argument. -/
def nodeJob (method version : String) (events : Event → Option (Job Empty)) : Job Empty :=
  .mk { nodeFields method version with arguments := ["n1"] } events none

theorem newJob_node {method version : String} (hmethod : '_' ∉ method.toList)
    (hversion : '_' ∉ version.toList) (hv : isVersion version.toList)
    (huri : ¬ "://".toList <:+: (jobName method "rm" "node" version).toList) :
    newJob anyJob "http://localhost/rm/v1" (jobName method "rm" "node" version) =
      .ok (nodeFields method version) := by
  rw [newJob, if_pos (by rfl), Fields.named, if_neg huri,
    setJobFromName_jobName hmethod (by decide) (by decide) hversion hv]
  rfl

theorem handed_nodeJob {method version : String} {events : Event → Option (Job Empty)}
    (hmethod : '_' ∉ method.toList) (hversion : '_' ∉ version.toList)
    (hv : isVersion version.toList)
    (huri : ¬ "://".toList <:+: (jobName method "rm" "node" version).toList)
    (hunknown : events .unknown = none)
    (hevents : ∀ e h, events e = some h → Handed patterns h) :
    Handed patterns (nodeJob method version events) := by
  have hbase : SuitableUri patterns "http://localhost/rm/v1" := by
    right
    intro checker hchecker
    cases hchecker
  exact .mk (fun _ => rfl) hbase (.inl rfl) (newJob_node hmethod hversion hv huri) .async ""
    ["n1"] .empty .empty .empty .empty hunknown hevents

/-- The handlers of a job that logs its end. -/
def logEnd : Event → Option (Job Empty)
  | .completed => some (nodeJob "put" "v2" fun _ => none)
  | _ => none

theorem handed_logEnd (e : Event) (h : Job Empty) (he : logEnd e = some h) :
    Handed patterns h := by
  cases e with
  | completed =>
      cases he
      refine handed_nodeJob (by decide) (by decide) (by decide) ?_ rfl fun _ _ he => nomatch he
      rw [toList_jobName]
      decide
  | _ => cases he

theorem enveloped_node : Accepted patterns noStatuses (nodeJob "get" "v1" logEnd) := by
  have hhanded : Handed patterns (nodeJob "get" "v1" logEnd) := by
    refine handed_nodeJob (by decide) (by decide) (by decide) ?_ rfl handed_logEnd
    rw [toList_jobName]
    decide
  have hone : (1 : ℕ) < 2 ^ 31 := by omega
  refine (enveloped_iff rfl rfl hhanded).mpr ⟨⟨?_, ?_⟩, .mk hone ?_⟩
  · change ¬ _ <:+: (jobName "get" "rm" "node" "v1").toList
    rw [toList_jobName]
    decide
  · change isVersionNumber (String.ofList (afterLast '_' (jobName "get" "rm" "node" "v1").toList))
    rw [toList_jobName]
    decide
  · intro e h he
    cases e with
    | completed =>
        cases he
        exact .mk hone fun _ _ he => nomatch he
    | _ => cases he

/-- The name of a job may end with `v1x`, which is not a version of the schema. -/
theorem not_enveloped : Handed patterns (nodeJob "get" "v1x" fun _ => none) ∧
    ¬ Accepted patterns noStatuses (nodeJob "get" "v1x" fun _ => none) := by
  have hhanded : Handed patterns (nodeJob "get" "v1x" fun _ => none) := by
    refine handed_nodeJob (by decide) (by decide) (by decide) ?_ rfl fun _ _ he => nomatch he
    rw [toList_jobName]
    decide
  refine ⟨hhanded, ?_⟩
  rw [accepted_iff_version rfl rfl hhanded]
  rintro ⟨hversion, -⟩
  exact absurd hversion (by decide)

end Samples

end Jobs

end Gearbox
