import Gearbox.Job.Envelope

/-!
# The decoding of an envelope

`JobManager::job` for a name and an envelope starts from the fields that the name gives and
overrides them one by one with what the envelope has. The handlers are decoded first, since the
base uri of the manager is changed by every envelope that is decoded. The schema of the job is
looked up before the content is read.

A node of a handler that is missing is created by `Json::get`, so that it is `null`.
-/

namespace Gearbox

namespace Jobs

open Json Refinement Config

variable {S D : Type}

section Nodes

/-- `Json::as<Json::Array>` -/
def asArray : Json D → Except Failure (List (Json D))
  | .array a => .ok a
  | j => .error (cannotConvert j .array)

/-- The node at a key after `Json::get`. -/
def nodeAt (j : Json D) (k : String) : Json D :=
  (j.member k).elim .undef id

/-- `Json::get` for a key: a new key gets a new node. -/
def getNode (j : Json D) (k : String) : Except Failure (Json D) := do
  let _ ← addKey k j
  return nodeAt j k

theorem sizeOf_member {j v : Json D} {k : String} (h : j.member k = some v) :
    sizeOf v < sizeOf j := by
  have hlookup : ∀ o : List (String × Json D), o.lookup k = some v → sizeOf v < sizeOf o := by
    intro o
    induction o with
    | nil => exact fun hnil => nomatch hnil
    | cons e rest ih =>
        obtain ⟨k₀, v₀⟩ := e
        intro hcons
        rw [Assoc.lookup_cons_eq] at hcons
        split at hcons
        · cases hcons
          simp only [List.cons.sizeOf_spec, Prod.mk.sizeOf_spec]
          omega
        · have hrest := ih hcons
          simp only [List.cons.sizeOf_spec, Prod.mk.sizeOf_spec]
          omega
  cases j with
  | object o =>
      have ho := hlookup o h
      simp only [object.sizeOf_spec]
      omega
  | _ => cases h

theorem sizeOf_nodeAt (j : Json D) (k : String) : sizeOf (nodeAt j k) ≤ sizeOf j := by
  rw [nodeAt]
  cases hmember : j.member k with
  | some v => exact Nat.le_of_lt (sizeOf_member hmember)
  | none => cases j <;> simp

end Nodes

section Read

variable (envelope : Json D)

/-- A text of the envelope, if it has the key. -/
def readText (k : String) (assign : String → Fields) (f : Fields) : Except Failure Fields :=
  match envelope.member k with
  | some v => do return assign (← v.asString)
  | none => return f

/-- The loop over the members of an object. -/
def readEntries (set : Fields → String → String → Fields) :
    List (String × Json D) → Fields → Except Failure Fields
  | [], f => return f
  | (k, v) :: rest, f => do readEntries set rest (set f k (← v.asString))

/-- The members of an object of the envelope, if it has the key. -/
def readHash (k : String) (set : Fields → String → String → Fields) (f : Fields) :
    Except Failure Fields :=
  match envelope.member k with
  | some v => do readEntries set (← v.asObject) f
  | none => return f

/-- The type of the job. -/
def readType (f : Fields) : Except Failure Fields :=
  match envelope.member "job_type" with
  | some v => do
    let type ← v.asString
    if type = "sync" then return { f with type := .sync }
    else if type = "async" then return { f with type := .async }
    else throw (.std "job envelope does not contain a valid job_type")
  | none => return f

/-- The type and the name of the resource. -/
def readResource (f : Fields) : Except Failure Fields :=
  match envelope.member "resource" with
  | some r => do
    let f ← readText r "type" (fun v => { f with resourceType := v }) f
    readText r "name" (fun v => { f with resourceName := v }) f
  | none => return f

/-- What the envelope says about the parts of the name, and the parent uri. -/
def readParts (f : Fields) : Except Failure Fields := do
  let f ← readText envelope "version" (fun v => { f with version := v }) f
  let f ← readText envelope "operation" (fun v => { f with operation := .of v }) f
  let f ← readText envelope "component" (fun v => { f with component := v }) f
  let f ← readResource envelope f
  readText envelope "parent_uri" (fun v => { f with parentUri := v }) f

/-- A header; one of them is the parent uri of a remote call. -/
def addHeader (f : Fields) (k v : String) : Fields :=
  if k = "y-status-parent-uri" then { f with parentUri := v }
  else { f with headers := f.headers.set k v }

/-- The arguments of the job. -/
def readArguments (f : Fields) : Except Failure Fields :=
  match envelope.member "arguments" with
  | some v => do
    let arguments ← (← asArray v).mapM asString
    return { f with arguments := f.arguments ++ arguments }
  | none => return f

/-- What the envelope says after the schema is looked up. -/
def readData (f : Fields) : Except Failure Fields := do
  let f ← readText envelope "content" (fun v => { f with content := v }) f
  let f ← readHash envelope "headers" addHeader f
  let f ← readHash envelope "matrix_arguments"
    (fun f k v => { f with matrixArguments := f.matrixArguments.set k v }) f
  let f ← readHash envelope "environ" (fun f k v => { f with environ := f.environ.set k v }) f
  let f ← readHash envelope "query_params"
    (fun f k v => { f with queryParams := f.queryParams.set k v }) f
  readArguments envelope f

/-- The base uri becomes the base uri of the manager, too. -/
def readBaseUri (f : Fields) : Code (Process D) Failure Fields :=
  match envelope.member "base_uri" with
  | some v => do
    let uri ← v.asString
    modify fun s => { s with baseUri := uri }
    return { f with baseUri := uri }
  | none => return f

/-- The status of the event. -/
def readEventStatus (st : Statuses S D) : Except Failure (Option S) :=
  match envelope.member "event_status" with
  | some v => do return some (← st.fetch v)
  | none => return none

end Read

section Decode

variable (sys : System D) (st : Statuses S D) (m : Manager)

/-- The part of `JobManager::job` after the handlers. -/
def decodeRest (envelope : Json D) (f : Fields) (events : Event → Option (Job S)) :
    Code (Process D) Failure (Job S) := do
  let f ← readParts envelope f
  let f ← readBaseUri envelope f
  let f ← readText envelope "status" (fun v => { f with status := v }) f
  let _ ← getSchema sys m f
  let f ← readData envelope f
  let eventStatus ← readEventStatus envelope st
  return .mk f events eventStatus

mutual

/-- `JobManager::job` for a name and an envelope -/
def decode (name : String) (envelope : Json D) : Code (Process D) Failure (Job S) := do
  let f ← Fields.named (Fields.new .gearman) name
  let f ← readType envelope f
  let events ← match _h : envelope.member "on" with
    | some (.object o) => decodeHandlers o fun _ => none
    | some v => throw (cannotConvert v .object)
    | none => pure fun _ => none
  decodeRest sys st m envelope f events
termination_by sizeOf envelope
decreasing_by
  have hsize := sizeOf_member _h
  simp only [object.sizeOf_spec] at hsize
  omega

/-- The loop over the handlers of the envelope. -/
def decodeHandlers : List (String × Json D) → (Event → Option (Job S)) →
    Code (Process D) Failure (Event → Option (Job S))
  | [], events => return events
  | (k, entry) :: rest, events => do
    let name ← (← getNode entry "name").asString
    let j ← decode name (nodeAt entry "envelope")
    decodeHandlers rest (Function.update events (str2event k) (some j))
termination_by o => sizeOf o
decreasing_by
  · have hsize := sizeOf_nodeAt entry "envelope"
    simp only [List.cons.sizeOf_spec, Prod.mk.sizeOf_spec]
    omega
  · simp only [List.cons.sizeOf_spec, Prod.mk.sizeOf_spec]
    omega

end

/-- The handlers of the envelope. -/
def decodeOn : Option (Json D) → Code (Process D) Failure (Event → Option (Job S))
  | some (.object o) => decodeHandlers sys st m o fun _ => none
  | some v => throw (cannotConvert v .object)
  | none => pure fun _ => none

theorem decode_eq (name : String) (envelope : Json D) :
    decode sys st m name envelope = (do
      let f ← Fields.named (Fields.new .gearman) name
      let f ← readType envelope f
      let events ← decodeOn sys st m (envelope.member "on")
      decodeRest sys st m envelope f events) := by
  rw [decode]
  congr 1
  funext f
  congr 1
  funext f
  cases envelope.member "on" with
  | none => rfl
  | some v =>
      cases v with
      | _ => rfl

end Decode

section Reading

variable {v : Json D} {f f₀ : Fields} {on status : Option (Json D)}

theorem member_envelope (k : String) : (f.envelope on status).member k =
    ((f.entries (.array (f.arguments.map .string)) on status).lookup k).join :=
  Assoc.lookup_assignAll (nodup_entries _ _ _ _) k

theorem readText_some {k text : String} (h : v.member k = some (.string text))
    (assign : String → Fields) : readText v k assign f = .ok (assign text) := by
  rw [readText, h]
  rfl

/-- A text that is left out if it is empty. -/
theorem readText_writeText {k text : String} (h : v.member k = writeText text)
    (assign : String → Fields) :
    readText v k assign f = .ok (if text = "" then f else assign text) := by
  rw [readText, h, writeText]
  by_cases hempty : text = ""
  · rw [if_pos hempty, if_pos hempty]
    rfl
  · rw [if_neg hempty, if_neg hempty]
    rfl

theorem assignAll_entries (h : Hash) :
    Assoc.assignAll (h.entries.map fun e => (e.1, some (string e.2 : Json D))) [] =
      h.entries.map fun e => (e.1, .string e.2) := by
  have hnodup : ((h.entries.map fun e => (e.1, some (string e.2 : Json D))).map
      Prod.fst).Nodup := by
    rw [List.map_map]
    exact h.sorted.nodup
  apply Assoc.Sorted.ext (Assoc.sorted_assignAll _ Assoc.sorted_nil)
  · rw [Assoc.Sorted, List.map_map]
    exact h.sorted
  · intro k
    rw [Assoc.lookup_assignAll hnodup]
    induction h.entries with
    | nil => rfl
    | cons e rest ih =>
        rw [List.map_cons, List.map_cons, Assoc.lookup_cons_eq, Assoc.lookup_cons_eq]
        split
        · rfl
        · exact ih

theorem readEntries_strings (set : Fields → String → String → Fields)
    (l : List (String × String)) (f : Fields) :
    readEntries set (l.map fun e => (e.1, (string e.2 : Json D))) f =
      .ok (l.foldl (fun f e => set f e.1 e.2) f) := by
  induction l generalizing f with
  | nil => rfl
  | cons e rest ih =>
      rw [List.map_cons, readEntries, asString, ok_bind, ih]
      rfl

theorem readHash_writeHash {k : String} {h : Hash} (hk : v.member k = some (writeHash h))
    (set : Fields → String → String → Fields) :
    readHash v k set f = .ok (h.entries.foldl (fun f e => set f e.1 e.2) f) := by
  rw [readHash, hk, writeHash, assignAll_entries]
  exact readEntries_strings set h.entries f

/-- A loop that sets entries of one table. -/
theorem foldl_put {g : Fields → Hash} {p : Fields → Hash → Fields}
    (hget : ∀ f h, g (p f h) = h) (hput : ∀ f h h', p (p f h) h' = p f h')
    (hself : ∀ f, p f (g f) = f) (l : List (String × String)) (f : Fields) :
    l.foldl (fun f e => p f ((g f).set e.1 e.2)) f = p f ((g f).setAll l) := by
  induction l generalizing f with
  | nil => exact (hself f).symm
  | cons e rest ih =>
      rw [List.foldl_cons, ih, hget, hput]
      rfl

/-- The parent uri among the headers, and the other headers. -/
theorem foldl_addHeader {l : List (String × String)} (hl : (l.map Prod.fst).Nodup)
    (f : Fields) : l.foldl (fun f e => addHeader f e.1 e.2) f = { f with
      parentUri := (l.lookup "y-status-parent-uri").getD f.parentUri
      headers := f.headers.setAll (l.filter fun e => e.1 ≠ "y-status-parent-uri") } := by
  induction l generalizing f with
  | nil => rfl
  | cons e rest ih =>
      obtain ⟨k, v⟩ := e
      rw [List.map_cons, List.nodup_cons] at hl
      rw [List.foldl_cons, ih hl.2, Assoc.lookup_cons_eq, List.filter_cons]
      by_cases hk : k = "y-status-parent-uri"
      · have hnone : rest.lookup "y-status-parent-uri" = none := by
          rw [← Option.not_isSome_iff_eq_none, Assoc.isSome_lookup, ← hk]
          simpa using hl.1
        simp [addHeader, hk, hnone]
      · have hk' : ¬ "y-status-parent-uri" = k := fun h => hk h.symm
        simp [addHeader, hk, hk', Assoc.Map.setAll]

end Reading

end Jobs

end Gearbox
