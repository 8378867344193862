import Gearbox.Json.Accept
import Gearbox.Json.Agreement
import Gearbox.Status.Gateway

/-!
# The published schema of a status

A client gets the text of a status, and `get-global-status-response-v1.js` says what it
may contain. The schema knows five of the eight states and no meta data, and it bounds the
progress and the code. A status that is changed by its operations conforms to the schema as
long as every operation keeps to what the schema knows.
-/

namespace Gearbox

namespace Status

open Json Refinement

variable {D : Type}

section Schema

/-- A property that is a count or a time. -/
def countSchema (description : List (String × Json D)) : Json D :=
  .object (description ++
    [("minimum", .int 0), ("optional", .bool true), ("type", .string "integer")])

/-- A property that is a uri and may be missing. -/
def optionalUri : Json D :=
  .object [("format", .string "uri"), ("optional", .bool true), ("type", .string "string")]

/-- The values that a form offers for the operation; nothing checks them. -/
def operationOptions : Json D :=
  .array [.object [("value", .string "get")], .object [("value", .string "delete")],
    .object [("value", .string "update")], .object [("value", .string "create")]]

/-- The properties of `get-global-status-response-v1.js`. -/
def statusProperties : List (String × Json D) :=
  [("children", .object [
      ("items", .object [("format", .string "uri"), ("type", .string "string")]),
      ("optional", .bool true), ("type", .string "array")]),
    ("code", countSchema []),
    ("component", .object [("type", .string "string")]),
    ("concurrency", countSchema [("description", .string
      "count of how many processes are concurrently working on this status")]),
    ("ctime", countSchema []),
    ("failures", countSchema [("description", .string
      "the count of how many times the job has been retried")]),
    ("messages", .object [("items", .object [("type", .string "string")]),
      ("type", .string "array")]),
    ("mtime", countSchema []),
    ("operation", .object [("options", operationOptions), ("type", .string "string")]),
    ("parent_uri", optionalUri),
    ("progress", .object [("maximum", .int 100), ("minimum", .int 0),
      ("type", .string "integer")]),
    ("state", .object [("enum", .array [.string "PENDING", .string "RUNNING",
      .string "CANCELLING", .string "CANCELLED", .string "COMPLETED"]),
      ("type", .string "string")]),
    ("status_uri", optionalUri),
    ("uri", .object [("format", .string "uri"), ("type", .string "string")]),
    ("ytime", countSchema [("description", .string
      "yield time, when it is scheduled to start running again")])]

/-- `get-global-status-response-v1.js` -/
def statusSchema : Json D :=
  .object [("additionalProperties", .bool false), ("properties", .object statusProperties),
    ("type", .string "object")]

/-- The text of the status is parsed, and the schema accepts the tree. -/
def Accepted (env : Env D) (s : Private D) : Prop :=
  ∃ d, s.serialize env = .ok (.document d) ∧ (validated env statusSchema d).isSome

end Schema

section Values

variable {env : Env D} {order : Order D} {checker : String → Bool}

theorem undemanding_status {keys : List String} :
    Undemanding (statusProperties : List (String × Json D)) keys where
  sorted := by
    rw [Assoc.Sorted]
    simp only [statusProperties, List.map_cons, List.map_nil]
    decide
  default := by
    simp [statusProperties, countSchema, optionalUri, member, Assoc.lookup_cons_eq]
  requires := by
    simp [statusProperties, countSchema, optionalUri, member, Assoc.lookup_cons_eq]
  optional := by
    simp [statusProperties, countSchema, optionalUri, member, Assoc.lookup_cons_eq]

theorem oneType_status : OneType (statusSchema : Json D) "object" :=
  ⟨rfl, rfl, by decide⟩

/-- The text of an integer is accepted if the integer is. -/
theorem allowsText_int (hcast : env.lexInt = lexicalCast) {s : Json D} {n : ℤ} (hn : IsInt64 n) :
    AllowsText env order s (.int n) ↔ Allows env.throwing order s (.int n) := by
  have hread : reread env (.int n) = some (.int n) := by
    rw [reread, lexNumber_toString hcast hn]
    rfl
  constructor
  · rintro ⟨j', hj', h⟩
    rw [hread] at hj'
    cases hj'
    exact h
  · exact fun h => ⟨_, hread, h⟩

/-- A count is not negative; a description changes nothing. -/
theorem allows_count (horder : order.Regular env) {description : List (String × Json D)}
    (hdescription : description = [] ∨ ∃ text, description = [("description", text)]) (n : ℤ) :
    Allows env order (countSchema description) (.int n) ↔ 0 ≤ n := by
  have htype : OneType (countSchema description) "integer" := by
    rcases hdescription with rfl | ⟨text, rfl⟩
    · exact ⟨rfl, rfl, by decide⟩
    · exact ⟨rfl, rfl, by decide⟩
  have hkeywords : (countSchema description).member "enum" = none ∧
      (countSchema description).member "maximum" = none ∧
      (countSchema description).member "minimum" = some (.int 0) := by
    rcases hdescription with rfl | ⟨text, rfl⟩
    · exact ⟨rfl, rfl, rfl⟩
    · exact ⟨rfl, rfl, rfl⟩
  obtain ⟨henum, hmaximum, hminimum⟩ := hkeywords
  rw [allows_scalar horder htype (by simp [IsPlainScalar, type]), validValue_int henum,
    validMaximum_of_none hmaximum, validMinimum_eq_ok hminimum]
  simp [matchesType, Kind.typeToSchemaType, type]

theorem allows_progress (horder : order.Regular env) (n : ℤ) :
    Allows env order (.object [("maximum", .int 100), ("minimum", .int 0),
      ("type", .string "integer")]) (.int n) ↔ 0 ≤ n ∧ n ≤ 100 := by
  rw [allows_scalar horder ⟨rfl, rfl, by decide⟩ (by simp [IsPlainScalar, type]),
    validValue_int rfl, validMaximum_eq_ok rfl, validMinimum_eq_ok rfl]
  simp [matchesType, Kind.typeToSchemaType, type]

/-- A schema that only says that a value is a uri. -/
theorem allows_uri (horder : order.Regular env) (hchecker : env.formats "uri" = some checker)
    {s : Json D} (h : OneType s "string") (hformat : s.member "format" = some (.string "uri"))
    (hnone : ∀ k ∈ ["minimum", "maximum", "minLength", "maxLength", "pattern", "enum"],
      s.member k = none) (v : String) : Allows env order s (.string v) ↔ checker v := by
  rw [allows_format (by decide) horder h hformat hnone, hchecker]
  simp

/-- The states that the schema knows. -/
def publishedStates : List State :=
  [.pending, .running, .cancelling, .cancelled, .completed]

theorem state2str_mem (st : State) : state2str st ∈ publishedStates.map state2str ↔
    st ∈ publishedStates := by
  cases st <;> decide

theorem allows_state (horder : order.Regular env) (hdefault : env.defaultFormat = "")
    (st : State) : Allows env order (.object [("enum", .array [.string "PENDING",
      .string "RUNNING", .string "CANCELLING", .string "CANCELLED", .string "COMPLETED"]),
      ("type", .string "string")]) (.string (state2str st)) ↔ st ∈ publishedStates := by
  rw [allows_string horder ⟨rfl, rfl, by decide⟩ (by simp [member, Assoc.lookup_cons_eq]),
    validFormat_of_none hdefault rfl, validPattern_of_none rfl, ← state2str_mem]
  simp only [true_and]
  exact validEnum_eq_ok (by decide) rfl

end Values

section Resources

/-- The uri of the resource. -/
def Private.statusUri (s : Private D) : Except Failure String := do
  let base ← s.base
  let canonical ← base.canonical
  return String.ofList canonical ++ "/status/" ++ s.name

/-- How a child is shown. -/
def Private.shown (s : Private D) (child : String) : Except Failure String := do
  writeChild (← s.base) child

/-- The status is what the schema describes. -/
structure Publishable (checker : String → Bool) (s : Private D) : Prop where
  statusUri : ∃ uri, s.statusUri = .ok uri ∧ checker uri
  resourceUri : checker s.resourceUri
  children : ∀ c ∈ s.children, ∃ uri, s.shown c = .ok uri ∧ checker uri
  parentUri : s.parentUri = "" ∨ checker s.parentUri
  messages : s.messages.length < 2 ^ 31
  length : s.children.length < 2 ^ 31
  metaData : s.metaData.empty
  state : s.state ∈ publishedStates
  progress : s.progress ≤ 100
  code : s.progress = 100 → 0 ≤ s.code
  ctime : 0 ≤ s.ctime
  mtime : 0 ≤ s.mtime

variable {env : Env D} {checker : String → Bool} {s : Private D} {j : Json D} {base : Uri}
  {canonical : List Char} {children : List String} {metaData : Option (Json D)}

/-- The schema accepts the text of the value of a key. -/
def Suits (env : Env D) (k : String) (v : Json D) : Prop :=
  ∃ c, statusSchema.childKey k = some c ∧ AllowsText env (whole env.throwing) c v

theorem suits_iff {k : String} {v c : Json D} (h : statusSchema.childKey k = some c) :
    Suits env k v ↔ AllowsText env (whole env.throwing) c v := by
  simp [Suits, h]

theorem suits_text (hdefault : env.defaultFormat = "") {k v : String}
    (hk : k = "operation" ∨ k = "component") : Suits env k (.string v) := by
  rcases hk with rfl | rfl
  · exact ⟨_, rfl, (allowsText_string v).mpr (allows_text regular_whole hdefault
      ⟨rfl, rfl, by decide⟩ (by simp [member, Assoc.lookup_cons_eq]) v)⟩
  · exact ⟨_, rfl, (allowsText_string v).mpr (allows_text regular_whole hdefault
      ⟨rfl, rfl, by decide⟩ (by simp [member, Assoc.lookup_cons_eq]) v)⟩

theorem suits_uri (hchecker : env.formats "uri" = some checker) {k v : String}
    (hk : k = "uri" ∨ k = "status_uri" ∨ k = "parent_uri") :
    Suits env k (.string v) ↔ checker v := by
  have hoptional : Allows env.throwing (whole env.throwing) optionalUri (.string v) ↔ checker v :=
    allows_uri regular_whole hchecker ⟨rfl, rfl, by decide⟩ rfl
      (by simp [optionalUri, member, Assoc.lookup_cons_eq]) v
  rcases hk with rfl | rfl | rfl
  · rw [suits_iff rfl, allowsText_string]
    exact allows_uri regular_whole hchecker ⟨rfl, rfl, by decide⟩ rfl
      (by simp [member, Assoc.lookup_cons_eq]) v
  · rw [suits_iff rfl, allowsText_string]
    exact hoptional
  · rw [suits_iff rfl, allowsText_string]
    exact hoptional

theorem suits_state (hdefault : env.defaultFormat = "") (st : State) :
    Suits env "state" (.string (state2str st)) ↔ st ∈ publishedStates := by
  rw [suits_iff rfl, allowsText_string]
  exact allows_state regular_whole hdefault st

theorem suits_progress (hcast : env.lexInt = lexicalCast) (n : UInt32) :
    Suits env "progress" (.int n.toNat) ↔ n ≤ 100 := by
  rw [suits_iff rfl, allowsText_int hcast (isInt64_toNat n)]
  refine (allows_progress regular_whole _).trans ?_
  rw [UInt32.le_iff_toNat_le]
  constructor
  · rintro ⟨-, hle⟩
    exact Int.ofNat_le.mp hle
  · exact fun hle => ⟨Int.natCast_nonneg _, Int.ofNat_le.mpr hle⟩

theorem suits_count (hcast : env.lexInt = lexicalCast) {k : String} {n : ℤ}
    (hn : IsInt64 n)
    (hk : k ∈ ["code", "failures", "ctime", "mtime", "ytime", "concurrency"]) :
    Suits env k (.int n) ↔ 0 ≤ n := by
  have hcount : ∀ {description : List (String × Json D)},
      (description = [] ∨ ∃ text, description = [("description", text)]) →
      (AllowsText env (whole env.throwing) (countSchema description) (.int n) ↔ 0 ≤ n) := by
    intro description hdescription
    rw [allowsText_int hcast hn]
    exact allows_count regular_whole hdescription n
  simp only [List.mem_cons, List.not_mem_nil, or_false] at hk
  rcases hk with rfl | rfl | rfl | rfl | rfl | rfl
  · exact (suits_iff rfl).trans (hcount (.inl rfl))
  · exact (suits_iff rfl).trans (hcount (.inr ⟨_, rfl⟩))
  · exact (suits_iff rfl).trans (hcount (.inl rfl))
  · exact (suits_iff rfl).trans (hcount (.inl rfl))
  · exact (suits_iff rfl).trans (hcount (.inr ⟨_, rfl⟩))
  · exact (suits_iff rfl).trans (hcount (.inr ⟨_, rfl⟩))

theorem suits_messages (hdefault : env.defaultFormat = "") {texts : List String}
    (hlength : texts.length < 2 ^ 31) :
    Suits env "messages" (.array (texts.map .string)) := by
  refine ⟨_, rfl, (allowsText_strings regular_whole ⟨rfl, rfl, by decide⟩ rfl rfl rfl
    (by omega)).mpr ?_⟩
  intro v _
  exact allows_text regular_whole hdefault ⟨rfl, rfl, by decide⟩
    (by simp [member, Assoc.lookup_cons_eq]) v

theorem suits_children (hchecker : env.formats "uri" = some checker) {texts : List String}
    (hlength : texts.length < 2 ^ 31) :
    Suits env "children" (.array (texts.map .string)) ↔ ∀ v ∈ texts, checker v := by
  rw [suits_iff rfl, allowsText_strings regular_whole ⟨rfl, rfl, by decide⟩ rfl rfl rfl
    (by omega)]
  refine forall₂_congr fun v _ => ?_
  exact allows_uri regular_whole hchecker ⟨rfl, rfl, by decide⟩ rfl
    (by simp [member, Assoc.lookup_cons_eq]) v

/-- The schema knows no meta data. -/
theorem not_suits_meta (v : Json D) : ¬ Suits env "meta" v := by
  rintro ⟨c, hc, -⟩
  cases hc

/-- The text of the object is accepted if every value is what the schema describes. -/
theorem allowsText_written (hcast : env.lexInt = lexicalCast) (hdefault : env.defaultFormat = "")
    (hchecker : env.formats "uri" = some checker)
    (h : s.Written j base canonical children metaData) :
    AllowsText env (whole env.throwing) statusSchema j ↔
      s.state ∈ publishedStates ∧ checker s.resourceUri ∧
      checker (String.ofList canonical ++ "/status/" ++ s.name) ∧
      s.progress ≤ 100 ∧ (s.progress = 100 → 0 ≤ s.code) ∧ (∀ uri ∈ children, checker uri) ∧
      metaData = none ∧ (s.parentUri = "" ∨ checker s.parentUri) ∧ 0 ≤ s.ctime ∧
      0 ≤ s.mtime := by
  have horder : (whole env.throwing).Regular env.throwing := regular_whole
  have hlength : children.length < 2 ^ 31 := by
    rw [← (mapM_eq_ok.mp h.children_eq).length_eq]
    exact h.length
  have hrequired : ∀ e ∈ (statusProperties : List (String × Json D)),
      e.2.member "optional" = none → ∃ v, (e.1, some v) ∈ s.fields
        (String.ofList canonical ++ "/status/" ++ s.name) (.array (s.messages.map .string))
        (.array (children.map .string)) metaData := by
    simp [statusProperties, countSchema, optionalUri, member, Assoc.lookup_cons_eq, Private.fields]
  have hytime : 0 < s.ytime → 0 ≤ s.ytime.toInt := by
    intro hpos
    exact Int64.le_iff_toInt_le.mp (Int64.le_of_lt hpos)
  have hmeta : (∀ v ∈ metaData, Suits env "meta" v) ↔ metaData = none := by
    cases metaData with
    | none => simp
    | some v => simp [not_suits_meta]
  have hparent : (∀ v ∈ (if s.parentUri = "" then none else some (Json.string s.parentUri)),
      Suits env "parent_uri" v) ↔ (s.parentUri = "" ∨ checker s.parentUri) := by
    rw [← ite_not, forall_mem_ite, suits_uri hchecker (by simp)]
    tauto
  rw [h.object, allowsText_assignAll horder oneType_status rfl (s.nodup_fields _ _ _ _)
    undemanding_status, and_iff_right (by decide), and_iff_left hrequired]
  change (∀ k v, _ → Suits env k v) ↔ _
  rw [forall_some]
  simp (disch := simp [isInt64_toNat, isInt64_toInt, isInt64_code]) only [Private.fields,
    List.forall_mem_cons, Option.mem_some_iff, forall_eq', forall_mem_ite, hmeta, hparent,
    suits_text hdefault, suits_uri hchecker, suits_state hdefault,
    suits_progress hcast, suits_count hcast, suits_messages hdefault h.messages,
    suits_children hchecker hlength]
  simp [eq_true hytime, Int64.le_iff_toInt_le, Int32.le_iff_toInt_le]

theorem ordered_written (h : s.Written j base canonical children metaData)
    (hordered : s.metaData.Ordered) : j.Ordered := by
  rw [h.object]
  apply ordered_assignAll
  intro k v hmem
  rcases mem_fields hmem with ⟨text, rfl⟩ | ⟨n, rfl, -⟩ | rfl | rfl | hv
  · trivial
  · trivial
  · exact ordered_strings _
  · exact ordered_strings _
  · rw [Private.writeMeta_eq h.meta_eq] at hv
    split at hv
    · cases hv
    · cases hv
      exact hordered

/-- The text of a status is the text of its object. -/
theorem accepted_iff_allowsText (hordered : s.metaData.Ordered) : Accepted env s ↔
    ∃ j, s.toJson = .ok j ∧ AllowsText env (whole env.throwing) statusSchema j := by
  have htext : ∀ {j}, s.toJson = .ok j →
      (AllowsText env (whole env.throwing) statusSchema j ↔
        ∃ d, generate env j = .ok d ∧ (validated env statusSchema d).isSome) := by
    intro j hj
    obtain ⟨base, canonical, children, metaData, hwritten⟩ := Private.toJson_eq_ok.mp hj
    have hread : (value? (generate env j)).bind (read env.throwing none) = reread env j :=
      read_generate (ordered_written hwritten hordered)
    rw [AllowsText, ← hread]
    cases generate env j with
    | error e => simp [value?]
    | ok d =>
        simp only [value?, Option.bind_some, Except.ok.injEq, exists_eq_left',
          validated_eq_conform]
        cases read env.throwing none d with
        | none => simp
        | some j' => simp [Allows]
  constructor
  · rintro ⟨d, hserialize, haccepts⟩
    obtain ⟨j, hj, hserialize⟩ := bind_eq_ok.mp hserialize
    obtain ⟨d', hd, hdocument⟩ := bind_eq_ok.mp hserialize
    cases hdocument
    exact ⟨j, hj, (htext hj).mpr ⟨_, hd, haccepts⟩⟩
  · rintro ⟨j, hj, hallows⟩
    obtain ⟨d, hd, haccepts⟩ := (htext hj).mp hallows
    refine ⟨d, ?_, haccepts⟩
    rw [Private.serialize, hj, ok_bind, Json.serialize, hd]
    rfl

/-- The children are shown one by one. -/
theorem mapM_shown (hbase : s.base = .ok base) :
    (∃ children, s.children.mapM (writeChild base) = .ok children ∧
      ∀ uri ∈ children, checker uri) ↔
      ∀ c ∈ s.children, ∃ uri, s.shown c = .ok uri ∧ checker uri := by
  have hshown : s.shown = writeChild base := by
    funext c
    rw [Private.shown, hbase, ok_bind]
  rw [hshown]
  constructor
  · rintro ⟨children, hwrite, hchildren⟩ c hc
    obtain ⟨uri, huri, hc⟩ := exists_of_mapM hwrite hc
    exact ⟨uri, hc, hchildren uri huri⟩
  · intro h
    obtain ⟨children, hwrite⟩ := exists_mapM fun c hc => (h c hc).imp fun _ => And.left
    refine ⟨children, hwrite, ?_⟩
    intro uri huri
    obtain ⟨c, hc, hwritten⟩ := exists_mem_of_mapM hwrite huri
    obtain ⟨uri', hc', hchecker⟩ := h c hc
    rw [hwritten] at hc'
    cases hc'
    exact hchecker

/-- The schema accepts exactly the statuses that it describes. -/
theorem accepted_iff (hcast : env.lexInt = lexicalCast) (hdefault : env.defaultFormat = "")
    (hchecker : env.formats "uri" = some checker) (hordered : s.metaData.Ordered) :
    Accepted env s ↔ Publishable checker s := by
  rw [accepted_iff_allowsText hordered]
  constructor
  · rintro ⟨j, hj, hallows⟩
    obtain ⟨base, canonical, children, metaData, hwritten⟩ := Private.toJson_eq_ok.mp hj
    obtain ⟨hstate, hresource, hstatus, hprogress, hcode, hchildren, hmeta, hparent, hctime,
      hmtime⟩ := (allowsText_written hcast hdefault hchecker hwritten).mp hallows
    refine ⟨⟨_, ?_, hstatus⟩, hresource,
      (mapM_shown hwritten.base_eq).mp ⟨children, hwritten.children_eq, hchildren⟩, hparent,
      hwritten.messages, hwritten.length, ?_, hstate, hprogress, hcode, hctime, hmtime⟩
    · rw [Private.statusUri, hwritten.base_eq, ok_bind, hwritten.canonical_eq]
      rfl
    · have hempty := Private.writeMeta_eq hwritten.meta_eq
      rw [hmeta] at hempty
      by_contra hne
      rw [if_neg hne] at hempty
      cases hempty
  · intro h
    obtain ⟨uri, huri, hstatus⟩ := h.statusUri
    obtain ⟨base, hbase, huri⟩ := bind_eq_ok.mp huri
    obtain ⟨canonical, hcanonical, huri⟩ := bind_eq_ok.mp huri
    cases huri
    obtain ⟨children, hwrite, hchildren⟩ := (mapM_shown hbase).mpr h.children
    have hmeta : s.writeMeta = .ok none := by
      rw [Private.writeMeta, if_pos h.metaData]
      rfl
    have hwritten := Private.Written.mk hbase hcanonical h.messages h.length hwrite hmeta rfl
    exact ⟨_, Private.toJson_eq_ok.mpr ⟨_, _, _, _, hwritten⟩,
      (allowsText_written hcast hdefault hchecker hwritten).mpr ⟨h.state, h.resourceUri, hstatus,
        h.progress, h.code, hchildren, rfl, h.parentUri, h.ctime, h.mtime⟩⟩

end Resources

section Operations

namespace StatusImpl

variable (clock : ℕ → Int64) (s : StatusImpl D)

/-- How an operation ends, and the status that it leaves. -/
abbrev Result (D : Type) : Type :=
  Except Failure Unit × StatusImpl D

/-- The error of a change of the state that is not valid. -/
def invalidChange (target : String) : Failure :=
  .std ("Invalid status state change from " ++ state2str s.state ++ " to " ++ target)

/-- What `fail` and `success` do: the progress is set last, since clients look for it. -/
def finish (code : Int32) : Result D :=
  match s.setState clock .completed with
  | (false, s) => (.error (s.invalidChange "COMPLETED"), s)
  | (true, s) =>
    (.ok (), ({ s.touch clock with code := code } : StatusImpl D).setProgress clock 100)

/-- `StatusImpl::fail` -/
def fail (code : Int32) : Result D :=
  s.finish clock code

/-- `StatusImpl::success` -/
def success : Result D :=
  s.finish clock 0

/-- `StatusImpl::cancel` -/
def cancel : Result D :=
  if s.state = .cancelled then
    (.ok (), s)
  else
    match s.setState clock .cancelled with
    | (false, s) => (.error (s.invalidChange "CANCELLED"), s)
    | (true, s) =>
      (.ok (), if s.progress < 100 then
        ({ s with code := 409 } : StatusImpl D).setProgress clock 100 else s)

/-- `Status::checkpoint` after the synchronisation; it throws if the work is to stop. -/
def checkpoint : Result D :=
  if s.state ∈ [.stopping, .stopped, .cancelling, .cancelled] then
    match s.setState clock .stopped with
    | (false, s) => (.error (.std "WorkerStop"), s)
    | (true, s) =>
      (.error (.std "WorkerStop"), ({ s with code := 410 } : StatusImpl D).setProgress clock 100)
  else
    (.ok (), s)

/-- `Status::progress`, which does not let the progress decrease. -/
def advance (p : UInt32) : StatusImpl D :=
  if s.progress < p then s.setProgress clock p else s

/-- The assignment to a key of a value, which becomes an object if it is undefined. -/
def setKey (j : Json D) (k : String) (v : Json D) : Except Failure (Json D) :=
  match j with
  | .object o => do return .object (Assoc.assign k (← v.copy) o)
  | .undef => do return .object (Assoc.assign k (← v.copy) [])
  | j => throw (.json ("cannot access object key \"" ++ k ++ "\" on type " ++ j.type.typeToName))

/-- `StatusImpl::meta` for a key. -/
def setMetaKey (k : String) (v : Json D) : Except Failure (StatusImpl D) := do
  return touch clock { s with metaData := ← setKey s.metaData k v }

/-- The status that an assignment leaves if it throws is the one it had. -/
def settled : Except Failure (StatusImpl D) → Result D
  | .ok s' => (.ok (), s')
  | .error e => (.error e, s)

end StatusImpl

/-- The operations of `Status` that change what is serialized. A call of `starting` or
`stopping` changes the concurrency. -/
inductive Operation (D : Type) where
  | addMessage (message : String)
  | addChild (child : String)
  | setMeta (metaData : Json D)
  | setMetaKey (k : String) (v : Json D)
  | progress (p : UInt32)
  | fail (code : Int32)
  | cancel
  | success
  | parentUri (parent : String)
  | ytime (t : Int64)
  | failures (count : UInt32)
  | state (st : State)
  | checkpoint
  | concurrency (count : UInt32)

namespace Operation

variable (clock : ℕ → Int64)

def perform (s : StatusImpl D) : Operation D → StatusImpl.Result D
  | addMessage message => (.ok (), s.addMessage clock message)
  | addChild child => (.ok (), s.addChild clock child)
  | setMeta metaData => s.settled (s.setMeta clock metaData)
  | setMetaKey k v => s.settled (s.setMetaKey clock k v)
  | progress p => (.ok (), s.advance clock p)
  | fail code => s.fail clock code
  | cancel => s.cancel clock
  | success => s.success clock
  | parentUri parent => (.ok (), s.setParentUri clock parent)
  | ytime t => (.ok (), { s with ytime := t })
  | failures count => (.ok (), { s with failures := count })
  | state st => (.ok (), (s.setState clock st).2)
  | checkpoint => s.checkpoint clock
  | concurrency count => (.ok (), { s with concurrency := count })

/-- What the schema needs of an operation, for the status before it. -/
def Safe (checker : String → Bool) (s : StatusImpl D) : Operation D → Prop
  | addMessage _ => s.messages.length + 1 < 2 ^ 31
  | addChild child => s.children.length + 1 < 2 ^ 31 ∧
      ∃ uri, s.toPrivate.shown child = .ok uri ∧ checker uri
  | setMeta metaData => metaData.empty ∨ ¬ metaData.Bounded (2 ^ 32 - 1)
  | setMetaKey _ v => s.metaData.type ∉ [.undef, .object] ∨ ¬ v.Bounded (2 ^ 32 - 1)
  | progress p => p ≤ s.progress ∨ p ≤ 100 ∧ (p = 100 → 0 ≤ s.code)
  | fail code => validStateTransition s.state .completed → 0 ≤ code
  | parentUri parent => parent = "" ∨ checker parent
  | state st => validStateTransition s.state st → st ∈ publishedStates
  | _ => True

end Operation

end Operations

section Steps

variable {checker : String → Bool} {s : Private D}

namespace Publishable

theorem with_messages (h : Publishable checker s) (messages : List String) :
    Publishable checker { s with messages := messages } ↔ messages.length < 2 ^ 31 :=
  ⟨fun h' => h'.messages, fun hmessages => ⟨h.statusUri, h.resourceUri, h.children, h.parentUri,
    hmessages, h.length, h.metaData, h.state, h.progress, h.code, h.ctime, h.mtime⟩⟩

theorem with_child (h : Publishable checker s) (child : String) :
    Publishable checker { s with children := s.children ++ [child] } ↔
      s.children.length + 1 < 2 ^ 31 ∧ ∃ uri, s.shown child = .ok uri ∧ checker uri := by
  constructor
  · intro h'
    have hlength := h'.length
    rw [List.length_append, List.length_singleton] at hlength
    exact ⟨hlength, h'.children child (List.mem_append_right _ List.mem_cons_self)⟩
  · rintro ⟨hlength, hchild⟩
    refine ⟨h.statusUri, h.resourceUri, ?_, h.parentUri, h.messages, ?_, h.metaData, h.state,
      h.progress, h.code, h.ctime, h.mtime⟩
    · intro c hc
      rcases List.mem_append.mp hc with hc | hc
      · exact h.children c hc
      · rw [List.mem_singleton.mp hc]
        exact hchild
    · rw [List.length_append, List.length_singleton]
      exact hlength

theorem with_meta (h : Publishable checker s) (metaData : Json D) :
    Publishable checker { s with metaData := metaData } ↔ metaData.empty :=
  ⟨fun h' => h'.metaData, fun hmeta => ⟨h.statusUri, h.resourceUri, h.children, h.parentUri,
    h.messages, h.length, hmeta, h.state, h.progress, h.code, h.ctime, h.mtime⟩⟩

theorem with_progress (h : Publishable checker s) (code : Int32) (p : UInt32) :
    Publishable checker { s with code := code, progress := p } ↔
      p ≤ 100 ∧ (p = 100 → 0 ≤ code) :=
  ⟨fun h' => ⟨h'.progress, h'.code⟩, fun hprogress => ⟨h.statusUri, h.resourceUri, h.children,
    h.parentUri, h.messages, h.length, h.metaData, h.state, hprogress.1, hprogress.2, h.ctime,
    h.mtime⟩⟩

theorem with_parent (h : Publishable checker s) (parent : String) :
    Publishable checker { s with parentUri := parent } ↔ parent = "" ∨ checker parent :=
  ⟨fun h' => h'.parentUri, fun hparent => ⟨h.statusUri, h.resourceUri, h.children, hparent,
    h.messages, h.length, h.metaData, h.state, h.progress, h.code, h.ctime, h.mtime⟩⟩

theorem with_state (h : Publishable checker s) (st : State) :
    Publishable checker { s with state := st } ↔ st ∈ publishedStates :=
  ⟨fun h' => h'.state, fun hstate => ⟨h.statusUri, h.resourceUri, h.children, h.parentUri,
    h.messages, h.length, h.metaData, hstate, h.progress, h.code, h.ctime, h.mtime⟩⟩

/-- The time of the last change may be any. -/
theorem with_mtime (hmtime : 0 ≤ s.mtime) {t : Int64} (ht : 0 ≤ t) :
    Publishable checker { s with mtime := t } ↔ Publishable checker s :=
  ⟨fun h => ⟨h.statusUri, h.resourceUri, h.children, h.parentUri, h.messages, h.length,
    h.metaData, h.state, h.progress, h.code, h.ctime, hmtime⟩,
   fun h => ⟨h.statusUri, h.resourceUri, h.children, h.parentUri, h.messages, h.length,
    h.metaData, h.state, h.progress, h.code, h.ctime, ht⟩⟩

/-- These fields are published as they are. -/
theorem with_counts (h : Publishable checker s) (ytime : Int64) (failures concurrency : UInt32) :
    Publishable checker
      { s with ytime := ytime, failures := failures, concurrency := concurrency } :=
  ⟨h.statusUri, h.resourceUri, h.children, h.parentUri, h.messages, h.length, h.metaData,
    h.state, h.progress, h.code, h.ctime, h.mtime⟩

end Publishable

variable {clock : ℕ → Int64} {s : StatusImpl D}

theorem publishable_touch (hclock : ∀ n, 0 ≤ clock n) (hmtime : 0 ≤ s.mtime) :
    Publishable checker (s.touch clock).toPrivate ↔ Publishable checker s.toPrivate :=
  Publishable.with_mtime hmtime (hclock s.asked)

variable (clock s) in
/-- A change of the state is refused, or it is made and the time may be set. -/
theorem setState_cases (st : State) :
    validStateTransition s.state st = false ∧ s.setState clock st = (false, s) ∨
      validStateTransition s.state st = true ∧ ∃ t n, (t = s.mtime ∨ t = clock s.asked) ∧
        s.setState clock st = (true, { s with state := st, mtime := t, asked := n }) := by
  cases hvalid : validStateTransition s.state st with
  | false =>
      have hunknown : st ≠ .unknown := by
        rintro rfl
        rw [validStateTransition_unknown_right] at hvalid
        cases hvalid
      refine Or.inl ⟨rfl, ?_⟩
      rw [StatusImpl.setState, if_pos ⟨hvalid, hunknown⟩]
  | true =>
      refine Or.inr ⟨rfl, ?_⟩
      rw [StatusImpl.setState, if_neg (by simp [hvalid])]
      dsimp only
      split
      · exact ⟨s.mtime, s.asked, .inl rfl, rfl⟩
      · exact ⟨clock s.asked, s.asked + 1, .inr rfl, rfl⟩

theorem publishable_setState (hclock : ∀ n, 0 ≤ clock n) (h : Publishable checker s.toPrivate)
    (st : State) : Publishable checker (s.setState clock st).2.toPrivate ↔
      (validStateTransition s.state st → st ∈ publishedStates) := by
  rcases setState_cases clock s st with ⟨hvalid, hset⟩ | ⟨hvalid, t, n, ht, hset⟩
  · simp [hvalid, hset, h]
  · have htime : 0 ≤ t := by
      rcases ht with rfl | rfl
      · exact h.mtime
      · exact hclock _
    rw [hset, ← h.with_state]
    simp only [hvalid, forall_const]
    exact Publishable.with_mtime (s := { s.toPrivate with state := st }) h.mtime htime

/-- A status that has completed has the progress 100 and the code. -/
theorem publishable_finish (hclock : ∀ n, 0 ≤ clock n) (h : Publishable checker s.toPrivate)
    (code : Int32) : Publishable checker (s.finish clock code).2.toPrivate ↔
      (validStateTransition s.state .completed → 0 ≤ code) := by
  rcases setState_cases clock s .completed with
    ⟨hvalid, hset⟩ | ⟨hvalid, t, n, ht, hset⟩
  · simp [StatusImpl.finish, hset, hvalid, h]
  · have hstate := (h.with_state .completed).mpr (by decide)
    have hprogress := (hstate.with_progress code 100).trans
      ⟨fun hp => hp.2 rfl, fun hcode => ⟨by decide, fun _ => hcode⟩⟩
    rw [StatusImpl.finish, hset]
    simp only [hvalid, forall_const]
    rw [← hprogress]
    exact Publishable.with_mtime (s := { s.toPrivate with
      state := .completed, code := code, progress := 100 }) h.mtime (hclock _)

theorem publishable_cancel (hclock : ∀ n, 0 ≤ clock n) (h : Publishable checker s.toPrivate) :
    Publishable checker (s.cancel clock).2.toPrivate := by
  rw [StatusImpl.cancel]
  split
  · exact h
  · have hset := (publishable_setState hclock h .cancelled).mpr fun _ => by decide
    rcases hcancel : s.setState clock .cancelled with ⟨ok, s'⟩
    rw [hcancel] at hset
    cases ok with
    | false => exact hset
    | true =>
        dsimp only
        split
        · have hprogress := (hset.with_progress 409 100).mpr ⟨by decide, fun _ => by decide⟩
          exact (Publishable.with_mtime (s := { s'.toPrivate with code := 409, progress := 100 })
            hset.mtime (hclock _)).mpr hprogress
        · exact hset

/-- The state of a status that is published never becomes `STOPPED` here. -/
theorem publishable_checkpoint (h : Publishable checker s.toPrivate) :
    Publishable checker (s.checkpoint clock).2.toPrivate := by
  rw [StatusImpl.checkpoint]
  split
  · have hinvalid : validStateTransition s.state .stopped = false := by
      have hknown : ∀ st ∈ publishedStates, st ∈ [.stopping, .stopped, .cancelling, .cancelled] →
          validStateTransition st .stopped = false := by
        decide
      exact hknown s.state h.state (by assumption)
    rcases setState_cases clock s .stopped with ⟨-, hset⟩ | ⟨hvalid, -⟩
    · rw [hset]
      exact h
    · rw [hinvalid] at hvalid
      cases hvalid
  · exact h

/-- A key is assigned, or there is no object to assign it in, or the value is not copied. -/
theorem setKey_cases (metaData : Json D) (k : String) (v : Json D) :
    metaData.type ∈ [.undef, .object] ∧ v.Bounded (2 ^ 32 - 1) ∧
      (∃ o, StatusImpl.setKey metaData k v = .ok (.object (Assoc.assign k v o)) ∧
        (metaData = .object o ∨ o = [])) ∨
    (metaData.type ∉ [.undef, .object] ∨ ¬ v.Bounded (2 ^ 32 - 1)) ∧
      ∃ e, StatusImpl.setKey metaData k v = .error e := by
  rcases copy_cases v with ⟨hbounded, hcopy⟩ | ⟨hlong, hcopy⟩
  · cases metaData with
    | undef =>
        refine .inl ⟨by simp [type], hbounded, [], ?_, .inr rfl⟩
        rw [StatusImpl.setKey, hcopy]
        rfl
    | object o =>
        refine .inl ⟨by simp [type], hbounded, o, ?_, .inl rfl⟩
        rw [StatusImpl.setKey, hcopy]
        rfl
    | _ => exact .inr ⟨.inl (by simp [type]), _, rfl⟩
  · refine .inr ⟨.inr hlong, ?_⟩
    cases metaData with
    | undef => exact ⟨.diverges, by rw [StatusImpl.setKey, hcopy]; rfl⟩
    | object o => exact ⟨.diverges, by rw [StatusImpl.setKey, hcopy]; rfl⟩
    | _ => exact ⟨_, rfl⟩

theorem empty_assign (k : String) (v : Json D) (o : List (String × Json D)) :
    (object (Assoc.assign k v o)).empty = false := by
  have hlookup := Assoc.lookup_assign k k v o
  rw [if_pos rfl] at hlookup
  rw [Json.empty, ← Bool.not_eq_true, List.isEmpty_iff]
  intro hnil
  rw [hnil] at hlookup
  cases hlookup

theorem publishable_setMeta (hclock : ∀ n, 0 ≤ clock n) (h : Publishable checker s.toPrivate)
    (metaData : Json D) :
    Publishable checker (s.settled (s.setMeta clock metaData)).2.toPrivate ↔
      (metaData.empty ∨ ¬ metaData.Bounded (2 ^ 32 - 1)) := by
  rcases copy_cases metaData with ⟨hbounded, hcopy⟩ | ⟨hlong, hcopy⟩
  · rw [StatusImpl.setMeta, hcopy, or_iff_left (not_not_intro hbounded), ← h.with_meta metaData]
    exact publishable_touch (s := { s with metaData := metaData }) hclock h.mtime
  · rw [StatusImpl.setMeta, hcopy]
    exact iff_of_true h (.inr hlong)

theorem publishable_setMetaKey (h : Publishable checker s.toPrivate) (k : String) (v : Json D) :
    Publishable checker (s.settled (s.setMetaKey clock k v)).2.toPrivate ↔
      (s.metaData.type ∉ [.undef, .object] ∨ ¬ v.Bounded (2 ^ 32 - 1)) := by
  rcases setKey_cases s.metaData k v with ⟨htype, hbounded, o, hset, -⟩ | ⟨hunset, e, hset⟩
  · rw [StatusImpl.setMetaKey, hset]
    refine iff_of_false ?_ ?_
    · intro h'
      have hempty : (object (Assoc.assign k v o)).empty = true := h'.metaData
      rw [empty_assign] at hempty
      cases hempty
    · rintro (htype' | hlong)
      · exact htype' htype
      · exact hlong hbounded
  · rw [StatusImpl.setMetaKey, hset]
    exact iff_of_true h hunset

/-- An operation keeps a status publishable if and only if it is safe. -/
theorem publishable_perform (hclock : ∀ n, 0 ≤ clock n) (h : Publishable checker s.toPrivate)
    (op : Operation D) : Publishable checker (op.perform clock s).2.toPrivate ↔
      op.Safe checker s := by
  cases op with
  | addMessage message =>
      have hmessages := h.with_messages (s.messages ++ [message])
      rw [List.length_append, List.length_singleton] at hmessages
      exact (publishable_touch (s := { s with messages := s.messages ++ [message] }) hclock
        h.mtime).trans hmessages
  | addChild child =>
      exact (publishable_touch (s := { s with children := s.children ++ [child] }) hclock
        h.mtime).trans (h.with_child child)
  | setMeta metaData => exact publishable_setMeta hclock h metaData
  | setMetaKey k v => exact publishable_setMetaKey h k v
  | progress p =>
      rw [Operation.perform, Operation.Safe, StatusImpl.advance]
      dsimp only
      split
      · rename_i hlt
        rw [or_iff_right (UInt32.not_le.mpr hlt), ← h.with_progress s.code p]
        exact publishable_touch (s := { s with progress := p }) hclock h.mtime
      · rename_i hle
        exact iff_of_true h (.inl (UInt32.not_lt.mp hle))
  | fail code => exact publishable_finish hclock h code
  | cancel => exact iff_of_true (publishable_cancel hclock h) trivial
  | success => exact iff_of_true ((publishable_finish hclock h 0).mpr fun _ => by decide) trivial
  | parentUri parent =>
      exact (publishable_touch (s := { s with parentUri := parent }) hclock h.mtime).trans
        (h.with_parent parent)
  | ytime t => exact iff_of_true (h.with_counts t s.failures s.concurrency) trivial
  | failures count => exact iff_of_true (h.with_counts s.ytime count s.concurrency) trivial
  | state st => exact publishable_setState hclock h st
  | checkpoint => exact iff_of_true (publishable_checkpoint h) trivial
  | concurrency count => exact iff_of_true (h.with_counts s.ytime s.failures count) trivial

end Steps

section Runs

variable (clock : ℕ → Int64)

/-- `StatusManager::create` up to the insertion. -/
def create (baseUri name operation resourceUri component : String) : StatusImpl D :=
  let s : StatusImpl D := { StatusImpl.new clock with baseUri := baseUri }
  let s := s.setName clock name
  let s := s.setOperation clock operation
  let s := s.setResourceUri clock resourceUri
  let s := s.setComponent clock component
  (s.setState clock .pending).2

/-- The statuses along a run. -/
def statuses (s : StatusImpl D) : List (Operation D) → List (StatusImpl D)
  | [] => [s]
  | op :: ops => s :: statuses (op.perform clock s).2 ops

/-- Every operation of a run is safe for the status before it. -/
def SafeRun (checker : String → Bool) (s : StatusImpl D) : List (Operation D) → Prop
  | [] => True
  | op :: ops => op.Safe checker s ∧ SafeRun checker (op.perform clock s).2 ops

/-- The values that an operation is called with have their keys in order. -/
def Operation.Ordered : Operation D → Prop
  | setMeta metaData => metaData.Ordered
  | setMetaKey _ v => v.Ordered
  | _ => True

variable {clock} {env : Env D} {checker : String → Bool} {s : StatusImpl D}

theorem metaData_setState (st : State) :
    (s.setState clock st).2.metaData = s.metaData := by
  rcases setState_cases clock s st with ⟨-, hset⟩ | ⟨-, t, n, -, hset⟩
  · rw [hset]
  · rw [hset]

theorem metaData_finish (code : Int32) : (s.finish clock code).2.metaData = s.metaData := by
  rcases setState_cases clock s .completed with ⟨-, hset⟩ | ⟨-, t, n, -, hset⟩
  · rw [StatusImpl.finish, hset]
  · rw [StatusImpl.finish, hset]
    rfl

theorem metaData_cancel : (s.cancel clock).2.metaData = s.metaData := by
  rw [StatusImpl.cancel]
  split
  · rfl
  · rcases setState_cases clock s .cancelled with ⟨-, hset⟩ | ⟨-, t, n, -, hset⟩
    · rw [hset]
    · rw [hset]
      dsimp only
      split
      · rfl
      · rfl

theorem metaData_checkpoint : (s.checkpoint clock).2.metaData = s.metaData := by
  rw [StatusImpl.checkpoint]
  split
  · rcases setState_cases clock s .stopped with ⟨-, hset⟩ | ⟨-, t, n, -, hset⟩
    · rw [hset]
    · rw [hset]
      rfl
  · rfl

theorem ordered_setKey {metaData v : Json D} (hmeta : metaData.Ordered) (hv : v.Ordered)
    {k : String} {j : Json D} (h : StatusImpl.setKey metaData k v = .ok j) : j.Ordered := by
  rcases setKey_cases metaData k v with ⟨-, -, o, hset, ho⟩ | ⟨-, e, hset⟩
  · rw [hset] at h
    cases h
    have hobject : (object o).Ordered := by
      rcases ho with rfl | rfl
      · exact hmeta
      · exact ⟨Assoc.sorted_nil, trivial⟩
    refine ⟨Assoc.sorted_assign hobject.1, ?_⟩
    have hmembers := hobject.2
    rw [orderedMembers_iff] at hmembers ⊢
    intro m hm
    rcases Assoc.mem_of_mem_assign hm with hvalue | hm
    · rw [hvalue]
      exact hv
    · exact hmembers m hm
  · rw [hset] at h
    cases h

/-- An operation leaves meta data with their keys in order. -/
theorem ordered_perform {op : Operation D} (hop : op.Ordered) (h : s.metaData.Ordered) :
    (op.perform clock s).2.metaData.Ordered := by
  cases op with
  | setMeta metaData =>
      rcases copy_cases metaData with ⟨-, hcopy⟩ | ⟨-, hcopy⟩
      · rw [Operation.perform, StatusImpl.setMeta, hcopy]
        exact hop
      · rw [Operation.perform, StatusImpl.setMeta, hcopy]
        exact h
  | setMetaKey k v =>
      rw [Operation.perform, StatusImpl.setMetaKey]
      cases hset : StatusImpl.setKey s.metaData k v with
      | error e => exact h
      | ok j => exact ordered_setKey h hop hset
  | progress p =>
      rw [Operation.perform, StatusImpl.advance]
      dsimp only
      split
      · exact h
      · exact h
  | fail code =>
      rw [Operation.perform, StatusImpl.fail, metaData_finish]
      exact h
  | cancel =>
      rw [Operation.perform, metaData_cancel]
      exact h
  | success =>
      rw [Operation.perform, StatusImpl.success, metaData_finish]
      exact h
  | state st =>
      rw [Operation.perform, metaData_setState]
      exact h
  | checkpoint =>
      rw [Operation.perform, metaData_checkpoint]
      exact h
  | _ => exact h

/-- A run from a publishable status. -/
theorem accepted_statuses (hcast : env.lexInt = lexicalCast) (hdefault : env.defaultFormat = "")
    (hchecker : env.formats "uri" = some checker) (hclock : ∀ n, 0 ≤ clock n)
    {ops : List (Operation D)} (hops : ∀ op ∈ ops, op.Ordered) (hordered : s.metaData.Ordered)
    (h : Publishable checker s.toPrivate) :
    (∀ s' ∈ statuses clock s ops, Accepted env s'.toPrivate) ↔ SafeRun clock checker s ops := by
  have haccepted : ∀ {s : StatusImpl D}, s.metaData.Ordered →
      (Accepted env s.toPrivate ↔ Publishable checker s.toPrivate) :=
    fun hs => accepted_iff hcast hdefault hchecker hs
  induction ops generalizing s with
  | nil => simp [statuses, SafeRun, haccepted hordered, h]
  | cons op ops ih =>
      rw [List.forall_mem_cons] at hops
      have hnext : (op.perform clock s).2.metaData.Ordered := ordered_perform hops.1 hordered
      have hstep := publishable_perform hclock h op
      rw [statuses, List.forall_mem_cons, SafeRun, ← hstep,
        and_iff_right ((haccepted hordered).mpr h)]
      constructor
      · intro hall
        have hpublishable : Publishable checker (op.perform clock s).2.toPrivate := by
          apply (haccepted hnext).mp
          apply hall
          cases ops with
          | nil => exact List.mem_cons_self
          | cons op' ops' => exact List.mem_cons_self
        exact ⟨hpublishable, (ih hops.2 hnext hpublishable).mp hall⟩
      · rintro ⟨hpublishable, hrest⟩
        exact (ih hops.2 hnext hpublishable).mpr hrest

/-- A new status can be published if its uris match the format. -/
theorem publishable_create (hclock : ∀ n, 0 ≤ clock n)
    {baseUri name operation resourceUri component : String}
    (hstatus : ∃ uri, (create clock baseUri name operation resourceUri component :
      StatusImpl D).toPrivate.statusUri = .ok uri ∧ checker uri)
    (hresource : checker resourceUri) :
    Publishable checker (create clock baseUri name operation resourceUri component :
      StatusImpl D).toPrivate := by
  refine ⟨hstatus, hresource, ?_, .inl rfl, ?_, ?_, rfl, ?_, ?_, ?_, hclock 0, hclock 6⟩
  · exact fun c hc => nomatch hc
  · change 0 < 2 ^ 31
    omega
  · change 0 < 2 ^ 31
    omega
  · change State.pending ∈ publishedStates
    decide
  · change (0 : UInt32) ≤ 100
    decide
  · intro hzero
    change (0 : UInt32) = 100 at hzero
    exact absurd hzero (by decide)

/-- Every status along a run from a new status, whose uris match the format, is accepted by
the schema if and only if every operation is safe for the status before it. -/
theorem published_iff (hcast : env.lexInt = lexicalCast) (hdefault : env.defaultFormat = "")
    (hchecker : env.formats "uri" = some checker) (hclock : ∀ n, 0 ≤ clock n)
    {baseUri name operation resourceUri component : String}
    (hstatus : ∃ uri, (create clock baseUri name operation resourceUri component :
      StatusImpl D).toPrivate.statusUri = .ok uri ∧ checker uri)
    (hresource : checker resourceUri) {ops : List (Operation D)}
    (hops : ∀ op ∈ ops, op.Ordered) :
    (∀ s ∈ statuses clock (create clock baseUri name operation resourceUri component) ops,
        Accepted env s.toPrivate) ↔
      SafeRun clock checker (create clock baseUri name operation resourceUri component) ops :=
  accepted_statuses hcast hdefault hchecker hclock hops trivial
    (publishable_create hclock hstatus hresource)

end Runs

section Samples

/-- A format that is the one of the source for the uris below. -/
def isWeb (v : String) : Bool :=
  ['h', 't', 't', 'p', ':', '/', '/'].isPrefixOf v.toList

/-- An environment with that format. -/
def webFormats : Env ℤ :=
  { tenths with formats := fun format => if format = "uri" then some isWeb else none }

/-- The uri of the resource of the status. -/
def nodeUri : String :=
  "http://rm.example:4080/rm/v1/node/n-1"

/-- A new status of the service. -/
def createdResource : StatusImpl ℤ :=
  create (fun _ => 11) serviceUri "s-1" "create" nodeUri ""

/-- A job that makes some progress, starts another one and succeeds, and is cancelled then. -/
def successfulRun : List (Operation ℤ) :=
  [.state .running, .addMessage "started", .progress 10, .addChild internalChild, .success,
    .state .cancelling, .cancel]

theorem base_createdResource : createdResource.toPrivate.base = .ok
    { scheme := Uri.http, hostname := "rm.example".toList, port := 4080,
      path := "rm/v1/".toList } := rfl

theorem statusUri_createdResource : createdResource.toPrivate.statusUri =
    .ok "http://rm.example:4080/rm/v1//status/s-1" := by
  rw [Private.statusUri, base_createdResource, ok_bind]
  rfl

theorem shown_internalChild (s : Private ℤ) (h : s.base = createdResource.toPrivate.base) :
    s.shown internalChild = .ok "http://rm.example:4080/transient/status/7" := by
  rw [Private.shown, h, base_createdResource, ok_bind]
  rfl

theorem published_successfulRun : successfulRun ≠ [] ∧
    ∀ s ∈ statuses (fun _ => 11) createdResource successfulRun,
      Accepted webFormats s.toPrivate := by
  refine ⟨List.cons_ne_nil _ _, (published_iff rfl rfl rfl (fun _ => by decide)
    ⟨_, statusUri_createdResource, ?_⟩ ?_ ?_).mpr ?_⟩
  · decide
  · decide
  · simp [successfulRun, Operation.Ordered]
  · refine ⟨?_, ?_, ?_, ⟨?_, _, shown_internalChild _ rfl, ?_⟩, trivial, ?_, trivial, trivial⟩
    · intro _
      decide
    · change 0 + 1 < 2 ^ 31
      omega
    · right
      decide
    · change 0 + 1 < 2 ^ 31
      omega
    · decide
    · intro _
      decide

/-- A status that is stopping, and one that has meta data, are not accepted. -/
theorem not_published :
    (¬ ∀ s ∈ statuses (fun _ => 11) createdResource [.state .running, .state .stopping],
      Accepted webFormats s.toPrivate) ∧
    ¬ ∀ s ∈ statuses (fun _ => 11) createdResource [.setMetaKey "tries" (.int 2)],
      Accepted webFormats s.toPrivate := by
  have hclock : ∀ n : ℕ, 0 ≤ (fun _ => 11 : ℕ → Int64) n := by
    intro n
    change (0 : Int64) ≤ 11
    decide
  have hordered : createdResource.metaData.Ordered := trivial
  have hnew : Publishable isWeb createdResource.toPrivate :=
    publishable_create hclock ⟨_, statusUri_createdResource, by decide⟩ (by decide)
  have hruns : ∀ ops : List (Operation ℤ), (∀ op ∈ ops, op.Ordered) →
      ((∀ s ∈ statuses (fun _ => 11) createdResource ops, Accepted webFormats s.toPrivate) ↔
        SafeRun (fun _ => 11) isWeb createdResource ops) := fun ops hops =>
    accepted_statuses rfl rfl rfl hclock hops hordered hnew
  constructor
  · rw [hruns _ (by simp [Operation.Ordered])]
    rintro ⟨-, hstopping, -⟩
    exact absurd (hstopping rfl) (by decide)
  · rw [hruns _ (by simp [Operation.Ordered, Json.Ordered])]
    rintro ⟨hmeta | hlong, -⟩
    · exact hmeta List.mem_cons_self
    · exact hlong trivial

end Samples

end Status

end Gearbox
