import Gearbox.Job.Accepted
import Gearbox.Job.Decode

/-!
# Jobs in transit

A job is sent as its envelope and decoded by the receiver. The encoder leaves out the empty
fields, and the decoder starts from the fields of the name, so that both have to agree field by
field. The implementation, the method, the timeout and the remote user are not among the fields
that the decoder reads.

The handlers are sent inside of the envelope, and they are decoded in the same way.
-/

namespace Gearbox

namespace Jobs

open Json Refinement Config

variable {S D : Type}

/-- The fields of a job after it was sent. -/
def Fields.received (f : Fields) : Fields :=
  { Fields.new .gearman with
    name := f.name
    version := f.version
    operation := f.operation
    component := f.component
    resourceType := f.resourceType
    resourceName := f.resourceName
    baseUri := if f.baseUri = "" then defaultBaseUri else f.baseUri
    parentUri := (f.headers.get "y-status-parent-uri").getD f.parentUri
    type := if f.type = .sync then .sync else .async
    content := f.content
    arguments := f.arguments
    matrixArguments := f.matrixArguments
    queryParams := f.queryParams
    headers := f.headers.erase "y-status-parent-uri"
    environ := f.environ
    status := f.status }

section Read

variable {f f₀ : Fields} {on status : Option (Json D)}

theorem readType_envelope : readType (f.envelope on status) f₀ =
    .ok { f₀ with type := if f.type = .sync then .sync else .async } := by
  have htype : (f.envelope on status).member "job_type" =
      some (.string (if f.type = .sync then "sync" else "async")) := by
    rw [member_envelope]
    rfl
  rw [readType, htype]
  by_cases hsync : f.type = .sync
  · simp [hsync, asString, pure, Except.pure]
  · simp [hsync, asString, pure, Except.pure]

theorem readResource_envelope : readResource (f.envelope on status) f₀ = .ok { f₀ with
    resourceType := f.resourceType
    resourceName := if f.resourceName = "" then f₀.resourceName else f.resourceName } := by
  have hresource : (f.envelope on status).member "resource" = some (writeResource f) := by
    rw [member_envelope]
    rfl
  have htype : (writeResource f : Json D).member "type" = some (.string f.resourceType) :=
    Assoc.lookup_assignAll (by simp) "type"
  have hname : (writeResource f : Json D).member "name" = writeText f.resourceName :=
    Assoc.lookup_assignAll (by simp) "name"
  rw [readResource, hresource]
  dsimp only
  rw [readText_some htype, ok_bind, readText_writeText hname]
  by_cases hempty : f.resourceName = ""
  · simp [hempty]
  · simp [hempty]

theorem readParts_envelope : readParts (f.envelope on status) f₀ = .ok { f₀ with
    version := f.version
    operation := f.operation
    component := f.component
    resourceType := f.resourceType
    resourceName := if f.resourceName = "" then f₀.resourceName else f.resourceName
    parentUri := if f.parentUri = "" then f₀.parentUri else f.parentUri } := by
  have hversion : (f.envelope on status).member "version" = some (.string f.version) := by
    rw [member_envelope]
    rfl
  have hoperation : (f.envelope on status).member "operation" =
      some (.string f.operation.text) := by
    rw [member_envelope]
    rfl
  have hcomponent : (f.envelope on status).member "component" =
      some (.string f.component) := by
    rw [member_envelope]
    rfl
  have hparent : (f.envelope on status).member "parent_uri" = writeText f.parentUri := by
    rw [member_envelope]
    rfl
  rw [readParts, readText_some hversion, ok_bind, readText_some hoperation, ok_bind,
    readText_some hcomponent, ok_bind, readResource_envelope, ok_bind,
    readText_writeText hparent, Operation.of_text]
  by_cases hempty : f.parentUri = ""
  · simp [hempty]
  · simp [hempty]

theorem outcome_readBaseUri (s : Process D) :
    outcome (readBaseUri (f.envelope on status) f₀) s =
      (.ok { f₀ with baseUri := if f.baseUri = "" then f₀.baseUri else f.baseUri },
        { s with baseUri := if f.baseUri = "" then s.baseUri else f.baseUri }) := by
  have hbase : (f.envelope on status).member "base_uri" = writeText f.baseUri := by
    rw [member_envelope]
    rfl
  rw [readBaseUri, hbase, writeText]
  by_cases hempty : f.baseUri = ""
  · rw [if_pos hempty, if_pos hempty, if_pos hempty]
    rfl
  · rw [if_neg hempty, if_neg hempty, if_neg hempty]
    rfl

theorem readArguments_envelope : readArguments (f.envelope on status) f₀ =
    .ok { f₀ with arguments := f₀.arguments ++ f.arguments } := by
  have harguments : (f.envelope on status).member "arguments" =
      some (.array (f.arguments.map .string)) := by
    rw [member_envelope]
    rfl
  have hstrings : (f.arguments.map (string : String → Json D)).mapM asString =
      .ok f.arguments := by
    rw [mapM_eq_ok, List.forall₂_map_left_iff, List.forall₂_same]
    exact fun _ _ => rfl
  rw [readArguments, harguments]
  dsimp only
  rw [asArray, ok_bind, hstrings]
  rfl

theorem readData_envelope : readData (f.envelope on status) f₀ = .ok { f₀ with
    content := if f.content = "" then f₀.content else f.content
    parentUri := (f.headers.get "y-status-parent-uri").getD f₀.parentUri
    headers := f₀.headers.setAll
      (f.headers.entries.filter fun e => e.1 ≠ "y-status-parent-uri")
    matrixArguments := f₀.matrixArguments.setAll f.matrixArguments.entries
    environ := f₀.environ.setAll f.environ.entries
    queryParams := f₀.queryParams.setAll f.queryParams.entries
    arguments := f₀.arguments ++ f.arguments } := by
  have hcontent : (f.envelope on status).member "content" = writeText f.content := by
    rw [member_envelope]
    rfl
  have hheaders : (f.envelope on status).member "headers" = some (writeHash f.headers) := by
    rw [member_envelope]
    rfl
  have hmatrix : (f.envelope on status).member "matrix_arguments" =
      some (writeHash f.matrixArguments) := by
    rw [member_envelope]
    rfl
  have henviron : (f.envelope on status).member "environ" = some (writeHash f.environ) := by
    rw [member_envelope]
    rfl
  have hquery : (f.envelope on status).member "query_params" =
      some (writeHash f.queryParams) := by
    rw [member_envelope]
    rfl
  rw [readData, readText_writeText hcontent, ok_bind, readHash_writeHash hheaders, ok_bind,
    foldl_addHeader f.headers.sorted.nodup, readHash_writeHash hmatrix, ok_bind,
    foldl_put (g := Fields.matrixArguments) (p := fun f h => { f with matrixArguments := h })
      (fun _ _ => rfl) (fun _ _ _ => rfl) (fun _ => rfl), readHash_writeHash henviron, ok_bind,
    foldl_put (g := Fields.environ) (p := fun f h => { f with environ := h })
      (fun _ _ => rfl) (fun _ _ _ => rfl) (fun _ => rfl), readHash_writeHash hquery, ok_bind,
    foldl_put (g := Fields.queryParams) (p := fun f h => { f with queryParams := h })
      (fun _ _ => rfl) (fun _ _ _ => rfl) (fun _ => rfl), readArguments_envelope]
  by_cases hempty : f.content = ""
  · simp [hempty, Assoc.Map.get]
  · simp [hempty, Assoc.Map.get]

theorem setAll_filter (h : Hash) (k : String) :
    Assoc.Map.empty.setAll (h.entries.filter fun e => e.1 ≠ k) = h.erase k :=
  Assoc.Map.setAll_entries (h.erase k)

/-- The fields that a name gives to a job. -/
theorem named_eq {name : String} (h : Fields.named (Fields.new .gearman) name = .ok f₀) :
    ∃ version operation component resource, f₀ = { Fields.new .gearman with
      name := name
      version := version
      operation := operation
      component := component
      resourceType := resource } := by
  rw [Fields.named] at h
  split at h
  · cases h
    exact ⟨_, _, _, _, rfl⟩
  · obtain ⟨op, component, resource, rfl⟩ := setJobFromName_eq h
    exact ⟨_, _, _, _, rfl⟩

/-- The fields for which the schema is looked up. -/
def Fields.looked (f : Fields) : Fields :=
  { f.received with
    parentUri := f.parentUri
    content := ""
    arguments := []
    matrixArguments := .empty
    queryParams := .empty
    headers := .empty
    environ := .empty }

/-- The base uri of the manager after an envelope was decoded. -/
def Fields.rebase (f : Fields) (s : Process D) : Process D :=
  { s with baseUri := if f.baseUri = "" then s.baseUri else f.baseUri }

variable (sys : System D) (st : Statuses S D) (m : Manager)

theorem ite_empty (text : String) : (if text = "" then "" else text) = text := by
  split
  · rename_i hempty
    exact hempty.symm
  · rfl

theorem readStatus_envelope :
    readText (f.envelope on status) "status" (fun v => { f₀ with status := v }) f₀ =
      .ok { f₀ with status := if f.status = "" then f₀.status else f.status } := by
  have hstatus : (f.envelope on status).member "status" = writeText f.status := by
    rw [member_envelope]
    rfl
  rw [readText_writeText hstatus]
  by_cases hempty : f.status = ""
  · simp [hempty]
  · simp [hempty]

theorem readData_looked : readData (f.envelope on status) f.looked = .ok f.received := by
  rw [readData_envelope]
  simp [Fields.looked, Fields.received, Fields.new, ite_empty, ← setAll_filter,
    Assoc.Map.setAll_entries]

/-- The decoder reads the fields of the job. -/
theorem outcome_decodeRest (h : Fields.named (Fields.new .gearman) f.name = .ok f₀)
    (events : Event → Option (Job S)) (s : Process D) :
    outcome (decodeRest sys st m (f.envelope on status)
        { f₀ with type := if f.type = .sync then .sync else .async } events) s =
      outcome (do
        let _ ← getSchema sys m f.looked
        let eventStatus ← readEventStatus (f.envelope on status) st
        return .mk f.received events eventStatus) (f.rebase s) := by
  obtain ⟨version, operation, component, resource, rfl⟩ := named_eq h
  rw [decodeRest, readParts_envelope, outcome_bind_ok (outcome_lift _ _),
    outcome_bind_ok (outcome_readBaseUri s), readStatus_envelope,
    outcome_bind_ok (outcome_lift _ _)]
  simp only [Fields.new, ite_empty]
  change outcome (getSchema sys m f.looked >>= _) (f.rebase s) = _
  rw [outcome_bind, outcome_bind]
  cases outcome (getSchema sys m f.looked) (f.rebase s) with
  | mk r s' =>
      cases r with
      | error e => rfl
      | ok schema =>
          change outcome (liftM (readData (f.envelope on status) f.looked) >>= _) s' = _
          rw [readData_looked, outcome_bind_ok (outcome_lift _ _)]

end Read

section Schemas

variable {sys : System D} {m : Manager} {s s' : Process D}

/-- Every look-up of a schema finds in `s'` what it finds in `s`. -/
def Unspoilt (sys : System D) (s s' : Process D) : Prop :=
  ∀ file, schemaAt sys s' file = schemaAt sys s file

/-- The files with the schemas of a job can be read, as far as they are looked for, and a
schema that is required is there. -/
def Readable (sys : System D) (m : Manager) (s : Process D) (f : Fields) : Prop :=
  (∃ schema, schemaAt sys s (m.schemaFile (schemaName f)) = .ok (some schema)) ∨
    schemaAt sys s (m.schemaFile (schemaName f)) = .ok none ∧
      ((∃ schema, schemaAt sys s (m.schemaFile (globalSchemaName f)) = .ok (some schema)) ∨
        schemaAt sys s (m.schemaFile (globalSchemaName f)) = .ok none ∧ m.required = false)

theorem readable_iff (f : Fields) :
    Readable sys m s f ↔ (foundSchema sys m s f).isSome := by
  rw [Readable, foundSchema]
  cases schemaAt sys s (m.schemaFile (schemaName f)) with
  | error e => simp [value?]
  | ok own =>
      cases own with
      | some schema => simp [value?]
      | none =>
          cases schemaAt sys s (m.schemaFile (globalSchemaName f)) with
          | error e => simp [value?]
          | ok shared =>
              cases shared with
              | some schema => simp [value?]
              | none => cases m.required <;> simp [value?]

theorem Unspoilt.readable_eq (h : Unspoilt sys s s') :
    Readable sys m s' = Readable sys m s := by
  funext f
  rw [Readable, Readable, h, h]

/-- `getSchema` returns if and only if the files can be read. -/
theorem outcome_getSchema_iff (f : Fields) :
    (∃ schema, (outcome (getSchema sys m f) s).1 = .ok schema) ↔ Readable sys m s f := by
  have hmeets : Meets (outcome (getSchema sys m f) s) (foundSchema sys m s f) (fun _ => True)
      (fun found found' s' => found = found' ∧ Steady sys s s') := meets_getSchema m f
  rw [readable_iff]
  rcases hmeets.cases with ⟨e, s', houtcome, hnone, -⟩ | ⟨a, b, s', houtcome, hsome, -⟩
  · rw [houtcome, hnone]
    simp
  · rw [houtcome, hsome]
    simp

theorem unspoilt_getSchema {f : Fields} {schema : Option (Json.Tree D)}
    (h : outcome (getSchema sys m f) s = (.ok schema, s')) : Unspoilt sys s s' := by
  obtain ⟨b, -, -, -, hsteady⟩ := (meets_getSchema m f).of_ok h
  exact hsteady.schemaAt_eq

end Schemas

section Received

variable (env : Env D) (st : Statuses S D) (found : Fields → Prop)

/-- What is fetched for the status of an event. -/
def FetchedStatus : Option (Json D) → Option S → Prop
  | none, y => y = none
  | some v, y => ∃ s, st.fetch v = .ok s ∧ y = some s

mutual

/-- The job that is decoded from an envelope that was through `n` texts. The schemas are found
for the jobs with the property `found`. -/
def Received : Job S → ℕ → Job S → Prop
  | .mk f events eventStatus, n, j' =>
    (∃ f₀, Fields.named (Fields.new .gearman) f.name = .ok f₀) ∧ found f ∧
      ∃ (events' : Event → Option (Job S)) (status : Option (Json D)) (status' : Option S),
        (∀ e, ReceivedHandler (events e) (n + 1) (events' e)) ∧
        SentStatus env st n eventStatus status ∧ FetchedStatus st status status' ∧
        j' = .mk f.received events' status'

def ReceivedHandler : Option (Job S) → ℕ → Option (Job S) → Prop
  | none, _, y => y = none
  | some j, n, y => ∃ j', Received j n j' ∧ y = some j'

end

end Received

section Decoded

variable {env : Env D} {st : Statuses S D} {sys : System D} {m : Manager} {s : Process D}

/-- The decoder returns the job that is received, and spoils no schema. -/
def Decodes (env : Env D) (st : Statuses S D) (sys : System D) (m : Manager) (j : Job S)
    (n : ℕ) : Prop :=
  ∀ {v s}, Sent env st j n v → ∀ j',
    ((∃ s', outcome (decode sys st m j.fields.name v) s = (.ok j', s')) ↔
      Received env st (Readable sys m s) j n j') ∧
    ∀ s', outcome (decode sys st m j.fields.name v) s = (.ok j', s') → Unspoilt sys s s'

theorem member_handlerEntry (name : String) (v : Json D) :
    (handlerEntry name v).member "name" = some (.string name) ∧
      (handlerEntry name v).member "envelope" = some v :=
  ⟨Assoc.lookup_assignAll (by simp) "name", Assoc.lookup_assignAll (by simp) "envelope"⟩

theorem getNode_handlerEntry (name : String) (v : Json D) :
    getNode (handlerEntry name v) "name" = .ok (.string name) := by
  rw [getNode, nodeAt, (member_handlerEntry name v).1]
  rfl

theorem nodeAt_handlerEntry (name : String) (v : Json D) :
    nodeAt (handlerEntry name v) "envelope" = v := by
  rw [nodeAt, (member_handlerEntry name v).2]
  rfl

/-- The handlers at the keys are received, and the others are as before. -/
def Filled (env : Env D) (st : Statuses S D) (found : Fields → Prop)
    (events : Event → Option (Job S)) (n : ℕ) (keys : List String)
    (before after : Event → Option (Job S)) : Prop :=
  ∀ e, if event2str e ∈ keys then ReceivedHandler env st found (events e) n (after e)
    else after e = before e

theorem filled_cons {found : Fields → Prop} {events before after : Event → Option (Job S)}
    {n : ℕ} {keys : List String} {e₀ : Event} {h : Job S} (he₀ : events e₀ = some h)
    (hnew : event2str e₀ ∉ keys) :
    Filled env st found events n (event2str e₀ :: keys) before after ↔
      ∃ j, Received env st found h n j ∧
        Filled env st found events n keys (Function.update before e₀ (some j)) after := by
  have hmem : ∀ e, e ≠ e₀ → (event2str e ∈ event2str e₀ :: keys ↔ event2str e ∈ keys) := by
    intro e he
    rw [List.mem_cons, or_iff_right fun heq => he (event2str_injective heq)]
  constructor
  · intro hfilled
    have hfirst := hfilled e₀
    rw [if_pos List.mem_cons_self, he₀, ReceivedHandler] at hfirst
    obtain ⟨j, hreceived, hj⟩ := hfirst
    refine ⟨j, hreceived, ?_⟩
    intro e
    by_cases he : e = e₀
    · subst he
      rw [if_neg hnew, Function.update_self, hj]
    · have hother := hfilled e
      rw [if_congr (hmem e he) rfl rfl] at hother
      rwa [Function.update_of_ne he]
  · rintro ⟨j, hreceived, hfilled⟩ e
    have hother := hfilled e
    by_cases he : e = e₀
    · subst he
      rw [if_neg hnew, Function.update_self] at hother
      rw [if_pos List.mem_cons_self, he₀, ReceivedHandler]
      exact ⟨j, hreceived, hother⟩
    · rw [Function.update_of_ne he] at hother
      rwa [if_congr (hmem e he) rfl rfl]

theorem outcome_decodeHandlers_cons (e : Event) (name : String) (v : Json D)
    (rest : List (String × Json D)) (acc : Event → Option (Job S)) (s : Process D) :
    outcome (decodeHandlers sys st m ((event2str e, handlerEntry name v) :: rest) acc) s =
      outcome (do
        let j ← decode sys st m name v
        decodeHandlers sys st m rest (Function.update acc e (some j))) s := by
  rw [decodeHandlers, getNode_handlerEntry, outcome_bind_ok (outcome_lift _ _), asString,
    outcome_bind_ok (outcome_lift _ _), nodeAt_handlerEntry, str2event_event2str]

/-- The loop over the handlers decodes the handlers of its list. -/
theorem decodeHandlers_iff {events : Event → Option (Job S)} {n : ℕ}
    (ih : ∀ e h, events e = some h → Decodes env st sys m h n) {o : List (String × Json D)}
    (ho : ∀ k y, (k, y) ∈ o → ∃ e h v, k = event2str e ∧ events e = some h ∧
      y = handlerEntry h.fields.name v ∧ Sent env st h n v)
    (hnodup : (o.map Prod.fst).Nodup) (acc : Event → Option (Job S)) (s : Process D)
    (r : Event → Option (Job S)) :
    ((∃ s', outcome (decodeHandlers sys st m o acc) s = (.ok r, s')) ↔
      Filled env st (Readable sys m s) events n (o.map Prod.fst) acc r) ∧
    ∀ s', outcome (decodeHandlers sys st m o acc) s = (.ok r, s') → Unspoilt sys s s' := by
  induction o generalizing acc s with
  | nil =>
      rw [decodeHandlers]
      refine ⟨⟨?_, ?_⟩, ?_⟩
      · rintro ⟨s', h⟩ e
        cases h
        exact rfl
      · intro h
        have hacc : acc = r := funext fun e => (h e).symm
        exact ⟨s, by rw [hacc]; rfl⟩
      · rintro s' h
        cases h
        exact fun _ => rfl
  | cons entry rest ih' =>
      obtain ⟨k, y⟩ := entry
      obtain ⟨e₀, h, v, rfl, he₀, rfl, hv⟩ := ho k y List.mem_cons_self
      rw [List.map_cons, List.nodup_cons] at hnodup
      have hrest := ih' (fun k y hmem => ho k y (List.mem_cons_of_mem _ hmem)) hnodup.2
      have hhead := fun j => ih e₀ h he₀ (s := s) hv j
      rw [List.map_cons, filled_cons he₀ hnodup.1, outcome_decodeHandlers_cons]
      constructor
      · constructor
        · rintro ⟨s', hok⟩
          obtain ⟨j, s₁, hdecode, hloop⟩ := exists_of_bind hok
          have hreceived := (hhead j).1.mp ⟨s₁, hdecode⟩
          have hfilled := (hrest (Function.update acc e₀ (some j)) s₁).1.mp ⟨s', hloop⟩
          rw [((hhead j).2 s₁ hdecode).readable_eq] at hfilled
          exact ⟨j, hreceived, hfilled⟩
        · rintro ⟨j, hreceived, hfilled⟩
          obtain ⟨s₁, hdecode⟩ := (hhead j).1.mpr hreceived
          rw [← ((hhead j).2 s₁ hdecode).readable_eq] at hfilled
          obtain ⟨s', hloop⟩ := (hrest (Function.update acc e₀ (some j)) s₁).1.mpr hfilled
          exact ⟨s', by rw [outcome_bind_ok hdecode, hloop]⟩
      · intro s' hok file
        obtain ⟨j, s₁, hdecode, hloop⟩ := exists_of_bind hok
        rw [(hrest (Function.update acc e₀ (some j)) s₁).2 s' hloop file,
          (hhead j).2 s₁ hdecode file]

theorem sentHandler_cases {o : Option (Job S)} {n : ℕ} {y : Option (Json D)}
    (h : SentHandler env st o n y) : o = none ∧ y = none ∨
      ∃ j v, o = some j ∧ y = some (handlerEntry j.fields.name v) ∧ Sent env st j n v := by
  cases o with
  | none => exact .inl ⟨rfl, h⟩
  | some j =>
      obtain ⟨v, hv, hy⟩ := h
      exact .inr ⟨j, v, rfl, hy, hv⟩

/-- The handlers of an envelope are decoded. -/
theorem decodeOn_iff {events : Event → Option (Job S)} {handlers : Event → Option (Json D)}
    {n : ℕ} (ih : ∀ e h, events e = some h → Decodes env st sys m h n)
    (hsent : ∀ e, SentHandler env st (events e) n (handlers e)) (s : Process D)
    (r : Event → Option (Job S)) :
    ((∃ s', outcome (decodeOn sys st m (writeOn (Event.all.map handlers))) s = (.ok r, s')) ↔
      ∀ e, ReceivedHandler env st (Readable sys m s) (events e) n (r e)) ∧
    ∀ s', outcome (decodeOn sys st m (writeOn (Event.all.map handlers))) s = (.ok r, s') →
      Unspoilt sys s s' := by
  have hnone : ∀ e, handlers e = none →
      (ReceivedHandler env st (Readable sys m s) (events e) n (r e) ↔ r e = none) := by
    intro e he
    rcases sentHandler_cases (hsent e) with ⟨hevent, -⟩ | ⟨j, v, -, hy, -⟩
    · rw [hevent, ReceivedHandler]
    · rw [he] at hy
      cases hy
  rw [writeOn]
  split
  · rename_i hall
    have hempty : ∀ e, handlers e = none := fun e =>
      Option.isNone_iff_eq_none.mp (hall _ (List.mem_map_of_mem (Event.mem_all e)))
    refine ⟨⟨?_, ?_⟩, ?_⟩
    · rintro ⟨s', hok⟩ e
      cases hok
      exact (hnone e (hempty e)).mpr rfl
    · intro hreceived
      have hr : (fun _ => none) = r :=
        funext fun e => ((hnone e (hempty e)).mp (hreceived e)).symm
      exact ⟨s, by rw [← hr]; rfl⟩
    · intro s' hok
      cases hok
      exact fun _ => rfl
  · have hmem : ∀ k y, (k, y) ∈ Assoc.assignAll
        ((Event.all.map event2str).zip (Event.all.map handlers)) [] ↔
        ∃ e, k = event2str e ∧ handlers e = some y := by
      intro k y
      rw [Assoc.mem_assignAll (nodup_events handlers), List.zip_map', List.mem_map]
      constructor
      · rintro ⟨e, -, he⟩
        obtain ⟨hk, hy⟩ := Prod.mk.inj he
        exact ⟨e, hk.symm, hy⟩
      · rintro ⟨e, rfl, hy⟩
        exact ⟨e, Event.mem_all e, by rw [hy]⟩
    have hkeys : ∀ e, event2str e ∉ (Assoc.assignAll
        ((Event.all.map event2str).zip (Event.all.map handlers)) []).map Prod.fst →
        handlers e = none := by
      intro e hnotMem
      cases he : handlers e with
      | none => rfl
      | some y =>
          exact absurd (List.mem_map_of_mem (f := Prod.fst) ((hmem _ y).mpr ⟨e, rfl, he⟩))
            hnotMem
    have ho : ∀ k y, (k, y) ∈ Assoc.assignAll
        ((Event.all.map event2str).zip (Event.all.map handlers)) [] →
        ∃ e h v, k = event2str e ∧ events e = some h ∧
          y = handlerEntry h.fields.name v ∧ Sent env st h n v := by
      intro k y hky
      obtain ⟨e, rfl, hy⟩ := (hmem k y).mp hky
      rcases sentHandler_cases (hsent e) with ⟨-, hnil⟩ | ⟨j, v, hj, hentry, hv⟩
      · rw [hy] at hnil
        cases hnil
      · rw [hy] at hentry
        exact ⟨e, j, v, rfl, hj, Option.some.inj hentry, hv⟩
    have hloop := decodeHandlers_iff ih ho (Assoc.sorted_assignAll _ Assoc.sorted_nil).nodup
      (fun _ => none) s r
    refine ⟨hloop.1.trans (forall_congr' fun e => ?_), hloop.2⟩
    split
    · rfl
    · rename_i hnotMem
      exact (hnone e (hkeys e hnotMem)).symm

theorem readEventStatus_iff {f : Fields} {on status : Option (Json D)} {y : Option S} :
    readEventStatus (f.envelope on status) st = .ok y ↔ FetchedStatus st status y := by
  have hstatus : (f.envelope on status).member "event_status" = status := by
    rw [member_envelope]
    rfl
  rw [readEventStatus, hstatus]
  cases status with
  | none => simp [FetchedStatus, pure, Except.pure, eq_comm]
  | some v =>
      simp only [bind_eq_ok, FetchedStatus, pure, Except.pure, Except.ok.injEq]
      exact exists_congr fun _ => and_congr_right fun _ => eq_comm

/-- A status that was sent is the same whenever it is sent. -/
theorem SentStatus.unique {n : ℕ} {s : Option S} {y y' : Option (Json D)}
    (h : SentStatus env st n s y) (h' : SentStatus env st n s y') : y = y' := by
  cases s with
  | none => exact h.trans h'.symm
  | some s =>
      obtain ⟨text, v₀, v, htext, hv₀, hv, rfl⟩ := h
      obtain ⟨text', v₀', v', htext', hv₀', hv', rfl⟩ := h'
      rw [htext] at htext'
      cases htext'
      rw [hv₀] at hv₀'
      cases hv₀'
      rw [hv] at hv'
      cases hv'
      rfl

theorem unspoilt_rebase (f : Fields) (s : Process D) : Unspoilt sys s (f.rebase s) :=
  fun _ => rfl

/-- The decoder returns after the handlers if and only if the schema is found and the status
is fetched. -/
theorem decodeRest_iff {f f₀ : Fields} {on status : Option (Json D)}
    (h : Fields.named (Fields.new .gearman) f.name = .ok f₀)
    (events : Event → Option (Job S)) (s : Process D) (j' : Job S) :
    ((∃ s', outcome (decodeRest sys st m (f.envelope on status)
        { f₀ with type := if f.type = .sync then .sync else .async } events) s = (.ok j', s')) ↔
      Readable sys m s f ∧
        ∃ status', FetchedStatus st status status' ∧ j' = .mk f.received events status') ∧
    ∀ s', outcome (decodeRest sys st m (f.envelope on status)
        { f₀ with type := if f.type = .sync then .sync else .async } events) s = (.ok j', s') →
      Unspoilt sys s s' := by
  have hschema : (∃ schema, (outcome (getSchema sys m f.looked) (f.rebase s)).1 = .ok schema) ↔
      Readable sys m (f.rebase s) f := outcome_getSchema_iff f.looked
  rw [(unspoilt_rebase f s).readable_eq] at hschema
  rw [outcome_decodeRest sys st m h events s]
  constructor
  · constructor
    · rintro ⟨s', hok⟩
      obtain ⟨schema, s₁, hfound, hrest⟩ := exists_of_bind hok
      obtain ⟨status', s₂, hread, hlast⟩ := exists_of_bind hrest
      cases hlast
      have hfetched := congrArg Prod.fst hread
      exact ⟨hschema.mp ⟨schema, congrArg Prod.fst hfound⟩, status',
        readEventStatus_iff.mp hfetched, rfl⟩
    · rintro ⟨hreadable, status', hfetched, rfl⟩
      obtain ⟨schema, hfound⟩ := hschema.mpr hreadable
      have houtcome : outcome (getSchema sys m f.looked) (f.rebase s) =
          (.ok schema, (outcome (getSchema sys m f.looked) (f.rebase s)).2) :=
        Prod.ext hfound rfl
      refine ⟨(outcome (getSchema sys m f.looked) (f.rebase s)).2, ?_⟩
      rw [outcome_bind_ok houtcome, readEventStatus_iff.mpr hfetched,
        outcome_bind_ok (outcome_lift _ _), outcome_pure]
  · intro s' hok file
    obtain ⟨schema, s₁, hfound, hrest⟩ := exists_of_bind hok
    obtain ⟨status', s₂, hread, hlast⟩ := exists_of_bind hrest
    cases hlast
    have hstate : s₁ = s' := congrArg Prod.snd hread
    rw [← hstate, unspoilt_getSchema hfound file, unspoilt_rebase f s file]

/-- The decoder makes of the envelope of a job the job that is received. -/
theorem decodes (st : Statuses S D) (sys : System D) (m : Manager) :
    ∀ (j : Job S) {n : ℕ}, Decodes env st sys m j n := by
  refine Job.induct fun f events eventStatus ih n v s hv j' => ?_
  obtain ⟨-, handlers, status, hhandlers, hstatus, rfl⟩ := hv
  have hon : (f.envelope (writeOn (Event.all.map handlers)) status).member "on" =
      writeOn (Event.all.map handlers) := by
    rw [member_envelope]
    rfl
  have hreadEvents := decodeOn_iff (fun e h he => ih e h he) hhandlers s
  rw [decode_eq, hon]
  change ((∃ s', outcome (liftM (Fields.named _ f.name) >>= _) s = _) ↔ _) ∧
    ∀ s', outcome (liftM (Fields.named _ f.name) >>= _) s = _ → _
  cases hnamed : Fields.named (Fields.new .gearman) f.name with
  | error e =>
      rw [outcome_bind_error (outcome_lift _ _), Received]
      refine ⟨⟨?_, ?_⟩, ?_⟩
      · rintro ⟨s', hok⟩
        cases hok
      · rintro ⟨⟨f₀, hf₀⟩, -⟩
        rw [hnamed] at hf₀
        cases hf₀
      · intro s' hok
        cases hok
  | ok f₀ =>
      rw [outcome_bind_ok (outcome_lift _ _), readType_envelope,
        outcome_bind_ok (outcome_lift _ _), Received]
      constructor
      · constructor
        · rintro ⟨s', hok⟩
          obtain ⟨events', s₁, hevents, hrest⟩ := exists_of_bind hok
          obtain ⟨hiff, hunspoilt⟩ := hreadEvents events'
          obtain ⟨hreadable, status', hfetched, rfl⟩ :=
            (decodeRest_iff hnamed events' s₁ j').1.mp ⟨s', hrest⟩
          rw [(hunspoilt s₁ hevents).readable_eq] at hreadable
          exact ⟨⟨f₀, hnamed⟩, hreadable, events', status, status', hiff.mp ⟨s₁, hevents⟩,
            hstatus, hfetched, rfl⟩
        · rintro ⟨-, hreadable, events', y, status', hreceived, hy, hfetched, rfl⟩
          obtain ⟨hiff, hunspoilt⟩ := hreadEvents events'
          obtain ⟨s₁, hevents⟩ := hiff.mpr hreceived
          rw [← (hunspoilt s₁ hevents).readable_eq] at hreadable
          rw [hy.unique hstatus] at hfetched
          obtain ⟨s', hrest⟩ := (decodeRest_iff hnamed events' s₁ _).1.mpr
            ⟨hreadable, status', hfetched, rfl⟩
          exact ⟨s', (outcome_bind_ok hevents).trans hrest⟩
      · intro s' hok file
        obtain ⟨events', s₁, hevents, hrest⟩ := exists_of_bind hok
        rw [(decodeRest_iff hnamed events' s₁ j').2 s' hrest file,
          (hreadEvents events').2 s₁ hevents file]

end Decoded

end Jobs

end Gearbox
