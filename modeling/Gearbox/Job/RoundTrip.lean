import Gearbox.Job.Transit

/-!
# The round trip of a job

A job is serialized, its text is parsed, and the envelope is decoded for the name of the job. The
job arrives if every job of the tree of its handlers has few arguments and a name and a schema
that the decoder takes. What arrives of an ordinary job is the same job. The implementation, the
method, the timeout and the remote user of any job are lost.
-/

namespace Gearbox

namespace Jobs

open Json Refinement Config

variable {S D : Type}

/-- A job is sent to a process, which decodes it. -/
def transit (sys : System D) (st : Statuses S D) (m : Manager) (j : Job S) :
    Code (Process D) Failure (Job S) := do
  let text ← j.serialize sys.env st
  let envelope ← parsed sys.env text
  decode sys st m j.fields.name envelope

section Arrives

variable (env : Env D) (st : Statuses S D) (found : Fields → Prop)

/-- The status that an event handler gets can be written, read `n + 1` times and fetched. -/
def StatusArrives (n : ℕ) (s : Option S) : Prop :=
  ∃ y y', SentStatus env st n s y ∧ FetchedStatus st y y'

/-- The name is one that `JobImpl::name` takes. -/
def ValidName (name : String) : Prop :=
  ∃ f, Fields.named (Fields.new .gearman) name = .ok f

/-- The job and its handlers can be encoded and decoded, in an envelope that goes through `n`
texts. -/
inductive Arrives : Job S → ℕ → Prop where
  | mk {f : Fields} {events : Event → Option (Job S)} {eventStatus : Option S} {n : ℕ}
      (name : ValidName f.name) (short : f.Short) (schema : found f)
      (status : StatusArrives env st n eventStatus)
      (handlers : ∀ e h, events e = some h → Arrives h (n + 1)) :
      Arrives (.mk f events eventStatus) n

variable {env st found}

/-- A job arrives if and only if it has an envelope from which a job is decoded. -/
theorem arrives_iff : ∀ (j : Job S) {n : ℕ}, Arrives env st found j n ↔
    (∃ v, Sent env st j n v) ∧ ∃ j', Received env st found j n j' := by
  refine Job.induct fun f events eventStatus ih n => ?_
  constructor
  · rintro ⟨hname, hshort, hfound, ⟨y, y', hy, hy'⟩, harrives⟩
    have hhandler : ∀ e, (∃ w, SentHandler env st (events e) (n + 1) w) ∧
        ∃ o, ReceivedHandler env st found (events e) (n + 1) o := by
      intro e
      cases he : events e with
      | none => exact ⟨⟨none, rfl⟩, none, rfl⟩
      | some h =>
          obtain ⟨⟨v, hv⟩, j', hj'⟩ := (ih e h he).mp (harrives e h he)
          exact ⟨⟨_, v, hv, rfl⟩, _, j', hj', rfl⟩
    choose handlers hsent using fun e => (hhandler e).1
    choose events' hreceived using fun e => (hhandler e).2
    exact ⟨⟨_, hshort, handlers, y, hsent, hy, rfl⟩, _, hname, hfound, events', y, y', hreceived,
      hy, hy', rfl⟩
  · rintro ⟨⟨v, hshort, handlers, -, hsent, -⟩, j', hname, hfound, events', y, y', hreceived, hy,
      hy', -⟩
    refine .mk hname hshort hfound ⟨y, y', hy, hy'⟩ ?_
    intro e h he
    have hs := hsent e
    have hr := hreceived e
    rw [he, SentHandler] at hs
    rw [he, ReceivedHandler] at hr
    obtain ⟨v', hv', -⟩ := hs
    obtain ⟨j'', hj'', -⟩ := hr
    exact (ih e h he).mpr ⟨⟨v', hv'⟩, j'', hj''⟩

end Arrives

section Transit

variable {sys : System D} {st : Statuses S D} {m : Manager} {s : Process D} {j j' : Job S}

/-- The envelope of a job is written and read. -/
theorem parsed_serialize {env : Env D} {v : Json D} :
    (∃ text, j.serialize env st = .ok text ∧ parsed env text = .ok v) ↔ Sent env st j 1 v := by
  rw [sent_succ]
  constructor
  · rintro ⟨text, hserialize, hparsed⟩
    obtain ⟨v₀, hv₀, htext⟩ := bind_eq_ok.mp hserialize
    have hsent := (toJson_eq_ok j).mp hv₀
    refine ⟨v₀, hsent, (resent_eq_ok (ordered_sent j hsent)).mp ?_⟩
    rw [resent, htext, ok_bind, hparsed]
  · rintro ⟨v₀, hsent, hreturns⟩
    have hresent := (resent_eq_ok (ordered_sent j hsent)).mpr hreturns
    obtain ⟨text, htext, hparsed⟩ := bind_eq_ok.mp hresent
    refine ⟨text, ?_, hparsed⟩
    rw [Job.serialize, (toJson_eq_ok j).mpr hsent, ok_bind, htext]

/-- What is decoded from the text of a job. -/
theorem transit_iff : (∃ s', outcome (transit sys st m j) s = (.ok j', s')) ↔
    Arrives sys.env st (Readable sys m s) j 1 ∧
      Received sys.env st (Readable sys m s) j 1 j' := by
  rw [arrives_iff]
  constructor
  · rintro ⟨s', hok⟩
    obtain ⟨text, s₁, htext, hok⟩ := exists_of_bind hok
    obtain ⟨v, s₂, hparsed, hdecode⟩ := exists_of_bind hok
    have hsent := parsed_serialize.mp
      ⟨text, congrArg Prod.fst htext, congrArg Prod.fst hparsed⟩
    have hstate₁ : s = s₁ := congrArg Prod.snd htext
    have hstate₂ : s₁ = s₂ := congrArg Prod.snd hparsed
    subst hstate₁ hstate₂
    have hreceived := (decodes st sys m j hsent j').1.mp ⟨s', hdecode⟩
    exact ⟨⟨⟨v, hsent⟩, j', hreceived⟩, hreceived⟩
  · rintro ⟨⟨⟨v, hsent⟩, -⟩, hreceived⟩
    obtain ⟨text, htext, hparsed⟩ := parsed_serialize.mpr hsent
    obtain ⟨s', hdecode⟩ := (decodes st sys m j hsent j').1.mpr hreceived
    refine ⟨s', ?_⟩
    rw [transit, htext, outcome_bind_ok (outcome_lift _ _), hparsed,
      outcome_bind_ok (outcome_lift _ _), hdecode]

end Transit

section Ordinary

/-- A gearman job as a worker gets it, with handlers of the same kind. -/
inductive Ordinary : Job S → Prop where
  | mk {f : Fields} {events : Event → Option (Job S)} (impl : f.impl = .gearman)
      (type : f.type = .sync ∨ f.type = .async) (name : ValidName f.name)
      (baseUri : f.baseUri ≠ "") (remoteIp : f.remoteIp = "") (remoteUser : f.remoteUser = "")
      (headers : f.headers.get "y-status-parent-uri" = none)
      (unknown : events .unknown = none)
      (handlers : ∀ e h, events e = some h → Ordinary h) : Ordinary (.mk f events none)

/-- The two jobs have the same data. -/
structure SameFields (f f' : Fields) : Prop where
  type_eq : f'.type = f.type
  version_eq : f'.version = f.version
  operation_eq : f'.operation = f.operation
  component_eq : f'.component = f.component
  resourceType_eq : f'.resourceType = f.resourceType
  resourceName_eq : f'.resourceName = f.resourceName
  baseUri_eq : f'.baseUri = f.baseUri
  parentUri_eq : f'.parentUri = f.parentUri
  status_eq : f'.status = f.status
  content_eq : f'.content = f.content
  arguments_eq : f'.arguments = f.arguments
  matrixArguments_eq : f'.matrixArguments = f.matrixArguments
  queryParams_eq : f'.queryParams = f.queryParams
  headers_eq : f'.headers = f.headers
  environ_eq : f'.environ = f.environ

/-- The two jobs have the same data, and equal handlers or none for every event. -/
inductive SameJob : Job S → Job S → Prop where
  | mk {f f' : Fields} {events events' : Event → Option (Job S)} {s s' : Option S}
      (fields : SameFields f f') (events_isSome : ∀ e, (events' e).isSome = (events e).isSome)
      (handlers : ∀ e h h', events e = some h → events' e = some h' → SameJob h h') :
      SameJob (.mk f events s) (.mk f' events' s')

variable {env : Env D} {st : Statuses S D} {found : Fields → Prop}

theorem erase_of_none {h : Hash} {k : String} (hk : h.get k = none) : h.erase k = h := by
  apply Assoc.Map.ext_get
  intro k'
  rw [Assoc.Map.get_erase]
  split
  · rename_i heq
    rw [heq, hk]
  · rfl

theorem sameFields_received {f : Fields} (htype : f.type = .sync ∨ f.type = .async)
    (hbase : f.baseUri ≠ "") (hheaders : f.headers.get "y-status-parent-uri" = none) :
    SameFields f f.received where
  type_eq := by
    rcases htype with htype | htype
    · simp [Fields.received, htype]
    · simp [Fields.received, htype]
  version_eq := rfl
  operation_eq := rfl
  component_eq := rfl
  resourceType_eq := rfl
  resourceName_eq := rfl
  baseUri_eq := if_neg hbase
  parentUri_eq := by
    rw [Fields.received, hheaders]
    rfl
  status_eq := rfl
  content_eq := rfl
  arguments_eq := rfl
  matrixArguments_eq := rfl
  queryParams_eq := rfl
  headers_eq := erase_of_none hheaders
  environ_eq := rfl

theorem receivedHandler_cases {o y : Option (Job S)} {n : ℕ}
    (h : ReceivedHandler env st found o n y) : o = none ∧ y = none ∨
      ∃ j j', o = some j ∧ y = some j' ∧ Received env st found j n j' := by
  cases o with
  | none => exact .inl ⟨rfl, h⟩
  | some j =>
      obtain ⟨j', hj', hy⟩ := h
      exact .inr ⟨j, j', rfl, hy, hj'⟩

/-- What is received of an ordinary job is the same job. -/
theorem Ordinary.sameJob {j : Job S} (h : Ordinary j) {n : ℕ} {j' : Job S}
    (hreceived : Received env st found j n j') : SameJob j j' := by
  induction h generalizing n j' with
  | @mk f events impl type name baseUri remoteIp remoteUser headers unknown handlers ih =>
      obtain ⟨-, -, events', -, -, hevents, -, -, rfl⟩ := hreceived
      refine .mk (sameFields_received type baseUri headers) ?_ ?_
      · intro e
        rcases receivedHandler_cases (hevents e) with ⟨he, he'⟩ | ⟨h, h', he, he', -⟩
        · rw [he, he']
        · rw [he, he']
          rfl
      · intro e h h' he he'
        rcases receivedHandler_cases (hevents e) with ⟨hnone, -⟩ | ⟨g, g', hg, hg', hreceived⟩
        · rw [he] at hnone
          cases hnone
        · rw [he] at hg
          rw [he'] at hg'
          cases hg
          cases hg'
          exact ih e h he hreceived

/-- An ordinary job arrives if the arguments can be counted and the schemas are found. -/
theorem Ordinary.arrives_iff {j : Job S} (h : Ordinary j) {n : ℕ} :
    Arrives env st found j n ↔ j.All Fields.Short ∧ j.All found := by
  induction h generalizing n with
  | @mk f events impl type name baseUri remoteIp remoteUser headers unknown handlers ih =>
      constructor
      · rintro ⟨-, hshort, hfound, -, harrives⟩
        exact ⟨.mk hshort fun e h he => ((ih e h he).mp (harrives e h he)).1,
          .mk hfound fun e h he => ((ih e h he).mp (harrives e h he)).2⟩
      · rintro ⟨⟨hshort, hshorts⟩, ⟨hfound, hfounds⟩⟩
        exact .mk name hshort hfound ⟨none, none, rfl, rfl⟩ fun e h he =>
          (ih e h he).mpr ⟨hshorts e h he, hfounds e h he⟩

variable {sys : System D} {m : Manager} {s : Process D}

/-- An ordinary job is decoded from its own text, and is the same job with the same handlers, if
and only if the arguments of all jobs can be counted and the schemas of all jobs can be
read. -/
theorem roundTrip_iff {j : Job S} (h : Ordinary j) :
    (∃ j' s', outcome (transit sys st m j) s = (.ok j', s') ∧ SameJob j j') ↔
      j.All Fields.Short ∧ j.All (Readable sys m s) := by
  have harrives : Arrives sys.env st (Readable sys m s) j 1 ↔
      j.All Fields.Short ∧ j.All (Readable sys m s) := h.arrives_iff
  rw [← harrives]
  constructor
  · rintro ⟨j', s', hok, -⟩
    exact (transit_iff.mp ⟨s', hok⟩).1
  · intro harrives
    obtain ⟨-, j', hreceived⟩ := (Jobs.arrives_iff j).mp harrives
    obtain ⟨s', hok⟩ := transit_iff.mpr ⟨harrives, hreceived⟩
    exact ⟨j', s', hok, h.sameJob hreceived⟩

end Ordinary

section Marks

/-- What a worker needs to run or to authorise a job. -/
structure SameMarks (f f' : Fields) : Prop where
  impl_eq : f'.impl = f.impl
  method_eq : f'.method = f.method
  timeout_eq : f'.timeout = f.timeout
  remoteIp_eq : f'.remoteIp = f.remoteIp
  remoteUser_eq : f'.remoteUser = f.remoteUser

/-- Nothing of it was set. -/
structure Unmarked (f : Fields) : Prop where
  impl : f.impl = .gearman
  method : f.method = .unknown
  timeout : f.timeout = 600
  remoteIp : f.remoteIp = ""
  remoteUser : f.remoteUser = ""

theorem sameMarks_received (f : Fields) : SameMarks f f.received ↔ Unmarked f := by
  constructor
  · rintro ⟨himpl, hmethod, htimeout, hip, huser⟩
    exact ⟨himpl.symm, hmethod.symm, htimeout.symm, hip.symm, huser.symm⟩
  · rintro ⟨himpl, hmethod, htimeout, hip, huser⟩
    exact ⟨himpl.symm, hmethod.symm, htimeout.symm, hip.symm, huser.symm⟩

variable {sys : System D} {st : Statuses S D} {m : Manager} {s : Process D}

theorem fields_received {env : Env D} {found : Fields → Prop} {j j' : Job S} {n : ℕ}
    (h : Received env st found j n j') : j'.fields = j.fields.received := by
  cases j with
  | mk f events eventStatus =>
      obtain ⟨-, -, events', -, -, -, -, -, rfl⟩ := h
      rfl

/-- What a worker needs to run or to authorise a job is the same after the transit if and only
if the job arrives and nothing of it was set. -/
theorem marks_iff (j : Job S) :
    (∃ j' s', outcome (transit sys st m j) s = (.ok j', s') ∧ SameMarks j.fields j'.fields) ↔
      Arrives sys.env st (Readable sys m s) j 1 ∧ Unmarked j.fields := by
  constructor
  · rintro ⟨j', s', hok, hsame⟩
    obtain ⟨harrives, hreceived⟩ := transit_iff.mp ⟨s', hok⟩
    rw [fields_received hreceived, sameMarks_received] at hsame
    exact ⟨harrives, hsame⟩
  · rintro ⟨harrives, hunmarked⟩
    obtain ⟨-, j', hreceived⟩ := (arrives_iff j).mp harrives
    obtain ⟨s', hok⟩ := transit_iff.mpr ⟨harrives, hreceived⟩
    refine ⟨j', s', hok, ?_⟩
    rw [fields_received hreceived, sameMarks_received]
    exact hunmarked

end Marks

section Samples

theorem readable_noFiles (f : Fields) : Readable noFiles anyJob Process.start f :=
  .inr ⟨rfl, .inr ⟨rfl, rfl⟩⟩

theorem all_readable_noFiles : ∀ j : Job Empty, j.All (Readable noFiles anyJob Process.start) :=
  Job.induct fun f _ _ ih => .mk (readable_noFiles f) ih

/-- A job for a node with some arguments and no handlers. -/
def argumentsJob (arguments : List String) : Job Empty :=
  .mk { nodeFields "get" "v1" with arguments := arguments } (fun _ => none) none

theorem validName_node {method version : String} (hmethod : '_' ∉ method.toList)
    (hversion : '_' ∉ version.toList) (hv : isVersion version.toList)
    (huri : ¬ "://".toList <:+: (jobName method "rm" "node" version).toList) :
    ValidName (nodeFields method version).name := by
  have hname : (nodeFields method version).name = jobName method "rm" "node" version := rfl
  rw [ValidName, hname, Fields.named, if_neg huri,
    setJobFromName_jobName hmethod (by decide) (by decide) hversion hv]
  exact ⟨_, rfl⟩

theorem validName_get : ValidName (nodeFields "get" "v1").name := by
  refine validName_node (by decide) (by decide) (by decide) ?_
  rw [toList_jobName]
  decide

theorem baseUri_nodeFields (method version : String) :
    (nodeFields method version).baseUri ≠ "" := by
  change "http://localhost/rm/v1" ≠ ""
  decide

theorem ordinary_nodeJob {method version : String} {events : Event → Option (Job Empty)}
    (hname : ValidName (nodeFields method version).name) (hunknown : events .unknown = none)
    (hevents : ∀ e h, events e = some h → Ordinary h) :
    Ordinary (nodeJob method version events) :=
  .mk rfl (.inr rfl) hname (baseUri_nodeFields method version) rfl rfl rfl hunknown hevents

theorem ordinary_argumentsJob (arguments : List String) :
    Ordinary (argumentsJob arguments) :=
  .mk rfl (.inr rfl) validName_get (baseUri_nodeFields "get" "v1") rfl rfl rfl rfl
    fun _ _ he => nomatch he

theorem roundTrip_node : ∃ j' s',
    outcome (transit noFiles noStatuses anyJob (nodeJob "get" "v1" logEnd)) Process.start =
      (.ok j', s') ∧ SameJob (nodeJob "get" "v1" logEnd) j' := by
  have hone : (1 : ℕ) < 2 ^ 31 := by omega
  have hordinary : Ordinary (nodeJob "get" "v1" logEnd) := by
    refine ordinary_nodeJob validName_get rfl ?_
    intro e h he
    cases e with
    | completed =>
        cases he
        refine ordinary_nodeJob (validName_node (by decide) (by decide) (by decide) ?_) rfl
          fun _ _ he => nomatch he
        rw [toList_jobName]
        decide
    | _ => cases he
  refine (roundTrip_iff hordinary).mpr ⟨.mk hone ?_, all_readable_noFiles _⟩
  intro e h he
  cases e with
  | completed =>
      cases he
      exact .mk hone fun _ _ he => nomatch he
  | _ => cases he

theorem not_transit_of_le {arguments : List String} (h : 2 ^ 31 ≤ arguments.length) :
    ¬ ∃ j' s', outcome (transit noFiles noStatuses anyJob (argumentsJob arguments))
      Process.start = (.ok j', s') ∧ SameJob (argumentsJob arguments) j' := by
  rintro ⟨j', s', hok, -⟩
  have harrives := (transit_iff.mp ⟨s', hok⟩).1
  obtain ⟨⟨hshort, -⟩, -⟩ := (ordinary_argumentsJob arguments).arrives_iff.mp harrives
  exact absurd hshort (Nat.not_lt.mpr h)

/-- A job with `2 ^ 31` arguments has no envelope. -/
theorem not_roundTrip : Ordinary (argumentsJob (List.replicate (2 ^ 31) "")) ∧
    anyJob.required = false ∧
    ¬ ∃ j' s', outcome (transit noFiles noStatuses anyJob
        (argumentsJob (List.replicate (2 ^ 31) ""))) Process.start = (.ok j', s') ∧
      SameJob (argumentsJob (List.replicate (2 ^ 31) "")) j' :=
  ⟨ordinary_argumentsJob _, rfl, not_transit_of_le (Nat.le_of_eq List.length_replicate.symm)⟩

/-- A job of a user. -/
def userJob : Job Empty :=
  .mk { nodeFields "get" "v1" with remoteUser := "alice" } (fun _ => none) none

/-- The user of a job is lost. -/
theorem not_marks : Arrives noFiles.env noStatuses (Readable noFiles anyJob Process.start)
      userJob 1 ∧
    ¬ ∃ j' s', outcome (transit noFiles noStatuses anyJob userJob) Process.start =
      (.ok j', s') ∧ SameMarks userJob.fields j'.fields := by
  constructor
  · exact .mk validName_get (Nat.two_pow_pos 31) (readable_noFiles _) ⟨none, none, rfl, rfl⟩
      fun _ _ he => nomatch he
  · rintro ⟨j', s', hok, hsame⟩
    have hreceived := (transit_iff.mp ⟨s', hok⟩).2
    rw [fields_received hreceived, sameMarks_received] at hsame
    exact absurd hsame.remoteUser (by decide)

end Samples

end Jobs

end Gearbox
