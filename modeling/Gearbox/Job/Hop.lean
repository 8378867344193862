import Gearbox.Job.RoundTrip

/-!
# The parent of a REST job

A REST job is sent as a request, with its headers and with its parent uri in a header of its
own. The Apache module that gets the request builds a job with the headers of the request, and
the worker that decodes this job takes the parent uri from a header. The names of the two headers
differ, so that the parent uri is lost unless the headers of the job have it under the name that
the worker looks for.
-/

namespace Gearbox

namespace Jobs

open Json Refinement Config

variable {S D : Type}

/-- `HttpClient::set_header` -/
def setHeader (headers : Hash) (header value : String) : Hash :=
  headers.set (strtolower header) value

/-- The headers that `RestJobImpl::run` sets. -/
def restHeaders (f : Fields) : Hash :=
  let headers := f.headers.entries.foldl (fun h e => setHeader h e.1 e.2) .empty
  if f.parentUri = "" then headers else setHeader headers "Status-Parent-Uri" f.parentUri

/-- The header that the worker takes the parent uri from. -/
def parentHeader : String :=
  "y-status-parent-uri"

/-- The headers of a job that are this header, whatever the case of their names. -/
def parentHeaders (f : Fields) : List (String × String) :=
  f.headers.entries.filter fun e => strtolower e.1 = parentHeader

section Headers

theorem get_foldl_setHeader (l : List (String × String)) (h : Hash) (k : String) :
    (l.foldl (fun h e => setHeader h e.1 e.2) h).get k =
      (((l.filter fun e => strtolower e.1 = k).getLast?).map Prod.snd).or (h.get k) := by
  induction l generalizing h with
  | nil => rfl
  | cons e rest ih =>
      rw [List.foldl_cons, ih, setHeader, Assoc.Map.get_set, List.filter_cons]
      by_cases hk : strtolower e.1 = k
      · rw [if_pos hk.symm, if_pos (decide_eq_true hk), List.getLast?_cons]
        cases (rest.filter fun e => strtolower e.1 = k).getLast? with
        | none => rfl
        | some e' => rfl
      · have hk' : ¬ k = strtolower e.1 := fun h => hk h.symm
        simp [hk, hk']

/-- The value of the header that is sent. -/
theorem get_restHeaders (f : Fields) :
    (restHeaders f).get parentHeader = ((parentHeaders f).getLast?).map Prod.snd := by
  have hname : ¬ parentHeader = strtolower "Status-Parent-Uri" := by decide
  have hheaders := get_foldl_setHeader f.headers.entries .empty parentHeader
  rw [restHeaders]
  split
  · rw [hheaders, parentHeaders]
    exact Option.or_none
  · rw [setHeader, Assoc.Map.get_set, if_neg hname, hheaders, parentHeaders]
    exact Option.or_none

end Headers

section Hop

variable {genId : String → String} {cfg : Location} {r : Request}

theorem parentUri_newJob {m : Manager} {baseUri name : String} {f : Fields}
    (h : newJob m baseUri name = .ok f) : f.parentUri = m.parentUri := by
  rw [newJob, Fields.named] at h
  split at h
  · split at h
    · cases h
      rfl
    · obtain ⟨op, component, resource, rfl⟩ := setJobFromName_eq h
      rfl
  · cases h

/-- The job for a request has the headers of the request, and the parent uri of the manager. -/
theorem gearboxHandler_eq {g : Fields} (h : gearboxHandler genId cfg r = .ok (some g)) :
    g.headers = copyTableTolower r.headersIn ∧ g.parentUri = cfg.manager.parentUri := by
  rw [gearboxHandler, bind_eq_ok] at h
  obtain ⟨⟨path, matrix⟩, -, h⟩ := h
  obtain ⟨⟨version, resource, path'⟩, -, h⟩ := bind_eq_ok.mp h
  dsimp only at h
  split at h
  · cases h
  · obtain ⟨function, -, h⟩ := bind_eq_ok.mp h
    obtain ⟨f, hf, h⟩ := bind_eq_ok.mp h
    have hparent := parentUri_newJob hf
    cases h
    cases path' with
    | nil =>
        dsimp only
        split_ifs
        all_goals exact ⟨rfl, hparent⟩
    | cons name rest =>
        dsimp only
        split_ifs
        all_goals exact ⟨rfl, hparent⟩

/-- A request from which all parts of a job can be read. -/
theorem gearboxHandler_of_ok {path path' : List String} {matrix : Hash}
    {version resource function : String} {f : Fields}
    (hsplit : splitPathArgs (String.ofList
      ((no2slash r.uri).toList.drop cfg.pathPrefix.length)) = .ok (path, matrix))
    (hcheck : checkPath path = .ok (version, resource, path')) (hbody : r.headerOnly = false)
    (hchoose : chooseJob cfg (strtolower r.method) resource version = .ok function)
    (hnew : newJob cfg.manager (r.hosturi ++ cfg.pathPrefix ++ "/" ++ version) function =
      .ok f) :
    ∃ g, gearboxHandler genId cfg r = .ok (some g) ∧ g.name = f.name ∧
      g.arguments = path' := by
  rw [gearboxHandler, hsplit, ok_bind]
  dsimp only
  rw [hcheck, ok_bind]
  dsimp only
  rw [if_neg (Bool.eq_false_iff.mp hbody), hchoose, ok_bind, hnew, ok_bind]
  refine ⟨_, rfl, ?_⟩
  cases path' with
  | nil =>
      dsimp only
      split_ifs
      all_goals exact ⟨rfl, rfl⟩
  | cons name rest =>
      dsimp only
      split_ifs
      all_goals exact ⟨rfl, rfl⟩

variable {sys : System D} {st : Statuses S D} {m : Manager} {s s' : Process D}

/-- The job that a worker decodes has the parent uri of the REST job if and only if the last of
the headers of the job that the worker takes for the parent uri is the parent uri, or there is
none and the manager of the location has this parent uri. `deliver` is what the transport makes
of the headers that the client sets. -/
theorem hop_iff {f g : Fields} {j' : Job S} (deliver : Hash → List (String × String))
    (hdeliver : (copyTableTolower (deliver (restHeaders f))).get parentHeader =
      (restHeaders f).get parentHeader)
    (hheaders : r.headersIn = deliver (restHeaders f))
    (hbuilt : gearboxHandler genId cfg r = .ok (some g))
    (hdecoded : outcome (transit sys st m (.mk g (fun _ => none) none)) s = (.ok j', s')) :
    j'.fields.parentUri = f.parentUri ↔
      (∃ e, (parentHeaders f).getLast? = some e ∧ e.2 = f.parentUri) ∨
        parentHeaders f = [] ∧ cfg.manager.parentUri = f.parentUri := by
  obtain ⟨hg, hparent⟩ := gearboxHandler_eq hbuilt
  have hreceived := fields_received (transit_iff.mp ⟨s', hdecoded⟩).2
  have huri : j'.fields.parentUri =
      (((parentHeaders f).getLast?).map Prod.snd).getD cfg.manager.parentUri := by
    rw [hreceived, ← get_restHeaders, ← hdeliver, ← hheaders, ← hg, ← hparent]
    rfl
  rw [huri]
  cases hlast : (parentHeaders f).getLast? with
  | none => simp [List.getLast?_eq_none_iff.mp hlast]
  | some e =>
      have hne : parentHeaders f ≠ [] := by
        rintro hnil
        rw [hnil] at hlast
        cases hlast
      simp [hne]

end Hop

section Samples

/-- A location for the component `rm`. -/
def rmLocation : Location where
  manager := anyJob
  component := "rm"
  pathPrefix := "/rm"
  syncPut := false
  syncPost := false
  syncDelete := false

/-- A request for the nodes. -/
def nodesRequest (headers : List (String × String)) : Request where
  method := "GET"
  hosturi := "http://localhost"
  uri := "/rm/v1/node"
  headerOnly := false
  args := none
  headersIn := headers
  subprocessEnv := []
  content := ""

/-- A REST job that sends this request. -/
def nodesJob (parentUri : String) (headers : Hash) : Fields :=
  { Fields.new .rest with
    name := "http://localhost/rm/v1/node"
    method := .get
    parentUri := parentUri
    headers := headers }

theorem built_nodesRequest (headers : List (String × String)) :
    ∃ g, gearboxHandler id rmLocation (nodesRequest headers) = .ok (some g) ∧
      g.name = (nodeFields "get" "v1").name ∧ g.arguments = [] := by
  have hlower : strtolower "GET" = "get" := by decide
  have hsplit : splitPathArgs (String.ofList
      ((no2slash "/rm/v1/node").toList.drop ("/rm" : String).length)) =
        .ok (["v1", "node"], .empty) := rfl
  have hcheck : checkPath ["v1", "node"] = .ok ("v1", "node", []) := rfl
  have hchoose : chooseJob rmLocation (strtolower "GET") "node" "v1" =
      .ok (jobName "get" "rm" "node" "v1") := by
    rw [hlower, chooseJob, if_pos (by rfl)]
    rfl
  have hnew : newJob anyJob ("http://localhost" ++ "/rm" ++ "/" ++ "v1")
      (jobName "get" "rm" "node" "v1") = .ok (nodeFields "get" "v1") := by
    refine newJob_node (by decide) (by decide) (by decide) ?_
    rw [toList_jobName]
    decide
  exact gearboxHandler_of_ok hsplit hcheck rfl hchoose hnew

/-- The job for the request is decoded. -/
theorem decoded_nodesRequest (headers : List (String × String)) :
    ∃ g j' s', gearboxHandler id rmLocation (nodesRequest headers) = .ok (some g) ∧
      outcome (transit noFiles noStatuses anyJob (.mk g (fun _ => none) none))
        Process.start = (.ok j', s') := by
  obtain ⟨g, hbuilt, hname, harguments⟩ := built_nodesRequest headers
  have hvalid : ValidName g.name := hname ▸ validName_get
  have hshort : g.Short := by
    rw [Fields.Short, harguments]
    exact Nat.two_pow_pos 31
  have harrives : Arrives noFiles.env noStatuses (Readable noFiles anyJob Process.start)
      (.mk g (fun _ => none) none) 1 :=
    .mk hvalid hshort (readable_noFiles g) ⟨none, none, rfl, rfl⟩ fun _ _ he => nomatch he
  obtain ⟨-, j', hreceived⟩ := (arrives_iff _).mp harrives
  obtain ⟨s', hok⟩ := transit_iff.mpr ⟨harrives, hreceived⟩
  exact ⟨g, j', s', hbuilt, hok⟩

/-- The parent uri is in a header of the job, too. -/
def linkedJob : Fields :=
  nodesJob "http://localhost/status/1"
    (Assoc.Map.empty.set "Y-Status-Parent-Uri" "http://localhost/status/1")

theorem hop_nodes : ∃ g j' s',
    gearboxHandler id rmLocation (nodesRequest (restHeaders linkedJob).entries) =
        .ok (some g) ∧
      outcome (transit noFiles noStatuses anyJob (.mk g (fun _ => none) none))
        Process.start = (.ok j', s') ∧
      j'.fields.parentUri = linkedJob.parentUri := by
  obtain ⟨g, j', s', hbuilt, hdecoded⟩ :=
    decoded_nodesRequest (restHeaders linkedJob).entries
  have hdeliver : (copyTableTolower (restHeaders linkedJob).entries).get parentHeader =
      (restHeaders linkedJob).get parentHeader := by decide
  refine ⟨g, j', s', hbuilt, hdecoded, ?_⟩
  exact (hop_iff (fun h => h.entries) hdeliver rfl hbuilt hdecoded).mpr (.inl ⟨_, rfl, rfl⟩)

/-- The parent uri is in no other header, and it is lost. -/
theorem not_hop : ∃ g j' s',
    gearboxHandler id rmLocation (nodesRequest
      (restHeaders (nodesJob "http://localhost/status/1" .empty)).entries) = .ok (some g) ∧
      outcome (transit noFiles noStatuses anyJob (.mk g (fun _ => none) none))
        Process.start = (.ok j', s') ∧
      j'.fields.parentUri ≠ "http://localhost/status/1" := by
  obtain ⟨g, j', s', hbuilt, hdecoded⟩ := decoded_nodesRequest
    (restHeaders (nodesJob "http://localhost/status/1" .empty)).entries
  obtain ⟨hg, hparent⟩ := gearboxHandler_eq hbuilt
  have hheader : g.headers.get parentHeader = none := by
    rw [hg]
    decide
  have huri : j'.fields.parentUri = (g.headers.get parentHeader).getD g.parentUri := by
    rw [fields_received (transit_iff.mp ⟨s', hdecoded⟩).2]
    rfl
  refine ⟨g, j', s', hbuilt, hdecoded, ?_⟩
  rw [huri, hheader, hparent]
  decide

end Samples

end Jobs

end Gearbox
