import Gearbox.Job.Schemas
import Gearbox.Json.Agreement

/-!
# Requests

`gearbox_handler` of the Apache module builds a job from a request. The version and the
resource are segments of the path, and the name of the job is put together from them and
from the method and the component. `JobImpl::name` takes the name apart again.

A name is taken apart as it was put together exactly if no part contains the separator
`_`, and if the name does not look like a uri.
-/

namespace Gearbox

namespace Jobs

open Json Refinement Config Texts

variable {D : Type}

/-- `JobManager::job` for a name, with the base uri of the manager. -/
def newJob (m : Manager) (baseUri name : String) : Except Failure Fields :=
  if m.known name then
    Fields.named { Fields.new .gearman with baseUri := baseUri, parentUri := m.parentUri }
      name
  else
    throw (.std ("No such job '" ++ name ++ "' enabled in config."))

/-- The settings of a `<Location>`. -/
structure Location where
  manager : Manager
  component : String
  pathPrefix : String
  syncPut : Bool
  syncPost : Bool
  syncDelete : Bool

/-- What the handler reads of a request. -/
structure Request where
  method : String
  /-- scheme, host and port -/
  hosturi : String
  uri : String
  headerOnly : Bool
  /-- the query -/
  args : Option String
  headersIn : List (String × String)
  subprocessEnv : List (String × Option String)
  content : String

/-- `strtolower` -/
def strtolower (str : String) : String :=
  String.ofList (str.toList.map Char.toLower)

/-- `is_sync_method` -/
def isSyncMethod (method : String) (cfg : Location) : Bool :=
  method = "head" ∨ method = "get" ∨ method = "post" ∧ cfg.syncPost ∨
    method = "put" ∧ cfg.syncPut ∨ method = "delete" ∧ cfg.syncDelete

/-- `copy_table_tolower` for the entries of a table -/
def copyTableTolower (table : List (String × String)) : Hash :=
  Assoc.Map.empty.setAll (table.map fun e => (strtolower e.1, e.2))

/-- `copy_table_raw` for the entries of a table -/
def copyTableRaw (table : List (String × Option String)) : Hash :=
  Assoc.Map.empty.setAll (table.map fun e => (e.1, e.2.getD ""))

/-- `boost::split` -/
def split (separators : List Char) (text : String) : List String :=
  (text.toList.splitOnP (· ∈ separators)).map String.ofList

/-- `ap_no2slash` -/
def no2slash (path : String) : String :=
  String.ofList (path.toList.foldr
    (fun c rest => if c = '/' ∧ rest.head? = some '/' then rest else c :: rest) [])

/-- The matrix arguments, a name and a value in turn. -/
def matrixArgs : List String → List (String × String)
  | name :: value :: rest => (name, value) :: matrixArgs rest
  | _ => []

/-- `split_path_args` -/
def splitPathArgs (pathArgs : String) : Except Failure (List String × Hash) :=
  if pathArgs = "" then
    .ok ([], .empty)
  else do
    let pathfixup := String.ofList pathArgs.toList.tail
    let (pathfixup, matrix) ←
      if ';' ∈ pathfixup.toList then
        match split [';', '='] pathfixup with
        | [] => throw .undefined
        | first :: rest =>
          if rest.length % 2 = 1 then
            throw (.std ("malformed matrix arguments in '" ++ pathfixup ++ "'"))
          else
            pure (if first = "" then pathfixup else first,
              (Assoc.Map.empty.setAll (matrixArgs rest) : Hash))
      else
        pure (pathfixup, .empty)
    let parts := split ['/'] pathfixup
    return (if parts.getLast? = some "" then parts.dropLast else parts, matrix)

/-- The version, the resource and the other segments of a path. -/
def checkPath : List String → Except Failure (String × String × List String)
  | version :: resource :: path =>
    if isVersion version.toList then
      if resource = "" then
        throw (.std "Incomplete API uri specified - no resource.")
      else
        return (version, resource, path)
    else
      throw (.std "Invalid API version designation.")
  | _ => throw (.std "Invalid API version designation.")

/-- The name of the job for a request. -/
def jobName (method component resource version : String) : String :=
  "do_" ++ method ++ "_" ++ component ++ "_" ++ resource ++ "_" ++ version

/-- The job of the component, or the global one. -/
def chooseJob (cfg : Location) (method resource version : String) :
    Except Failure String :=
  if cfg.manager.known (jobName method cfg.component resource version) then
    return jobName method cfg.component resource version
  else if cfg.manager.known (jobName method "global" resource version) then
    return jobName method "global" resource version
  else
    throw (.std "No valid handler found!")

/-- A parameter of the query; its value is `1` if there is none. -/
def queryParam (arg : String) : String × String :=
  match cut '=' arg.toList with
  | some (key, value) => (String.ofList key, String.ofList value)
  | none => (arg, "1")

/-- `gearbox_handler` up to the run of the job. There is no job for a request that wants
the header only. `genId` is `JobManager::gen_id`. -/
def gearboxHandler (genId : String → String) (cfg : Location) (r : Request) :
    Except Failure (Option Fields) := do
  let pathInfo := String.ofList ((no2slash r.uri).toList.drop cfg.pathPrefix.length)
  let (path, matrix) ← splitPathArgs pathInfo
  let (version, resource, path) ← checkPath path
  if r.headerOnly then
    return none
  let baseUri := r.hosturi ++ cfg.pathPrefix ++ "/" ++ version
  let method := strtolower r.method
  let function ← chooseJob cfg method resource version
  let job ← newJob cfg.manager baseUri function
  let job := { job with
    remoteIp := ""
    headers := copyTableTolower r.headersIn
    environ := copyTableRaw r.subprocessEnv
    arguments := path
    matrixArguments := matrix
    queryParams := match r.args with
      | some args => job.queryParams.setAll ((split [';', '&'] args).map queryParam)
      | none => job.queryParams }
  let job :=
    match path with
    | [] =>
      if method = "post" then
        { job with
          operation := .of "create"
          resourceName := genId (String.ofList [job.resourceType.toList.headD (Char.ofNat 0)]) }
      else job
    | name :: _ => { job with resourceName := name }
  let job := if r.content = "" then job else { job with content := r.content }
  return some (if isSyncMethod method cfg then { job with type := .sync } else job)

section Names

/-- No part of a name that was taken apart contains the separator. -/
structure Separated (f : Fields) : Prop where
  operation : '_' ∉ f.operation.text.toList
  resourceType : '_' ∉ f.resourceType.toList
  version : '_' ∉ f.version.toList

/-- The separator is not lost when an operation is renamed. -/
theorem mem_operation (op : String) :
    '_' ∈ (Operation.of op).text.toList ↔ '_' ∈ op.toList := by
  rw [Operation.of]
  split
  · rename_i hput
    subst hput
    decide
  · split
    · rename_i hpost
      subst hpost
      decide
    · rfl

theorem separated_setJobFromName {f f' : Fields} {name : String}
    (h : setJobFromName f name = .ok f') : Separated f' := by
  rw [setJobFromName] at h
  split at h
  · split at h
    · cases h
    · rename_i op rest hop
      simp only at h
      split at h
      · split at h
        · cases h
        · split at h
          · cases h
          · rename_i resource after hresource
            cases h
            constructor
            · rw [mem_operation, String.toList_ofList]
              exact notMem_of_cut hop
            · rw [String.toList_ofList]
              exact notMem_of_cut hresource
            · rw [String.toList_ofList]
              exact notMem_afterLast '_' name.toList
      · cases h
  · cases h

theorem toList_jobName (method component resource version : String) :
    (jobName method component resource version).toList =
      'd' :: 'o' :: '_' :: (method.toList ++ '_' :: (component.toList ++ '_' ::
        (resource.toList ++ '_' :: version.toList))) := by
  have hdo : "do_".toList = ['d', 'o', '_'] := by decide
  have hseparator : "_".toList = ['_'] := by decide
  simp [jobName, hdo, hseparator]

end Names

section Routing

variable {m : Manager} {baseUri method component resource version : String}
  {path : List String}

/-- The job has the fields that its name was put together from, and the first schema that
is looked up for it is named after them. -/
structure Routed (sys : System D) (m : Manager)
    (method component resource version : String) (f : Fields) : Prop where
  component_eq : f.component = component
  resourceType_eq : f.resourceType = resource
  version_eq : f.version = version
  operation_eq : f.operation = .of method
  schema : ∀ s, ∃ result rest, (outcome (getSchema sys m f) s).2.answers =
    s.answers ++ .schema (m.schemaFile ((Operation.of method).text ++ "-" ++ component ++
      "-" ++ resource ++ "-" ++ version)) result :: rest

/-- A name without the separator in its parts is taken apart as it was put together. -/
theorem setJobFromName_jobName (hmethod : '_' ∉ method.toList)
    (hcomponent : '_' ∉ component.toList) (hresource : '_' ∉ resource.toList)
    (hversion : '_' ∉ version.toList) (hv : isVersion version.toList) (f : Fields) :
    setJobFromName f (jobName method component resource version) = .ok { f with
      version := version
      operation := .of method
      component := component
      resourceType := resource } := by
  have hlast : afterLast '_' (jobName method component resource version).toList =
      version.toList := by
    have happend : (jobName method component resource version).toList =
        ('d' :: 'o' :: '_' :: (method.toList ++ '_' :: (component.toList ++ '_' ::
          resource.toList))) ++ '_' :: version.toList := by
      rw [toList_jobName]
      simp
    rw [happend, afterLast_append hversion]
  rw [setJobFromName, hlast, toList_jobName]
  simp only [cut_append hmethod, cut_append hcomponent, cut_append hresource, hv, if_true,
    String.ofList_toList]
  rfl

theorem version_ne_empty (h : isVersion version.toList) : version ≠ "" := by
  rintro rfl
  cases h

/-- A job with a version has the parts of a name that was taken apart. -/
theorem separated_newJob {name : String} {f : Fields} (h : newJob m baseUri name = .ok f)
    (hversion : f.version ≠ "") :
    Separated f ∧ ¬ "://".toList <:+: name.toList := by
  rw [newJob, Fields.named] at h
  split at h
  · split at h
    · cases h
      exact absurd rfl hversion
    · rename_i huri
      exact ⟨separated_setJobFromName h, huri⟩
  · cases h

/-- The job that is built from its name has the component, the resource, the version and
the operation of the request if and only if these parts do not contain `_` and the name
does not contain `://`. -/
theorem routed_iff (sys : System D) (hcomponent : '_' ∉ component.toList)
    (haccepted : checkPath (version :: resource :: path) = .ok (version, resource, path))
    (hknown : m.known (jobName (strtolower method) component resource version)) :
    (∃ f, newJob m baseUri (jobName (strtolower method) component resource version) =
        .ok f ∧ Routed sys m (strtolower method) component resource version f) ↔
      '_' ∉ (strtolower method).toList ∧ '_' ∉ resource.toList ∧ '_' ∉ version.toList ∧
        ¬ "://".toList <:+:
          (jobName (strtolower method) component resource version).toList := by
  have hversion : isVersion version.toList := by
    rw [checkPath] at haccepted
    split at haccepted
    · assumption
    · cases haccepted
  constructor
  · rintro ⟨f, hf, hrouted⟩
    have hne : f.version ≠ "" := by
      rw [hrouted.version_eq]
      exact version_ne_empty hversion
    obtain ⟨⟨hoperation, hresource, hlast⟩, huri⟩ := separated_newJob hf hne
    rw [hrouted.operation_eq, mem_operation] at hoperation
    rw [hrouted.resourceType_eq] at hresource
    rw [hrouted.version_eq] at hlast
    exact ⟨hoperation, hresource, hlast, huri⟩
  · rintro ⟨hmethod, hresource, hlast, huri⟩
    rw [newJob, if_pos hknown, Fields.named, if_neg huri,
      setJobFromName_jobName hmethod hcomponent hresource hlast hversion]
    refine ⟨_, rfl, rfl, rfl, rfl, rfl, ?_⟩
    intro s
    exact answers_getSchema sys m _ s

/-- A system without files. -/
def noFiles : System ℤ where
  env := wholeNumbers
  file := fun _ => .absent
  conf := fun _ => []
  serverRoot := "/"

/-- A job manager that knows every job. -/
def anyJob : Manager where
  known := fun _ => true
  parentUri := ""
  schemaDir := "/schemas"
  needed := -1
  requireSchemas := false

theorem routed_get : ∃ f, newJob anyJob "http://localhost/rm/v1"
      (jobName (strtolower "GET") "rm" "node" "v1") = .ok f ∧
    Routed noFiles anyJob (strtolower "GET") "rm" "node" "v1" f := by
  have hmethod : (strtolower "GET").toList = ['g', 'e', 't'] := by decide
  have haccepted : checkPath ["v1", "node"] = .ok ("v1", "node", []) := rfl
  refine (routed_iff noFiles (by decide) haccepted rfl).mpr ⟨?_, ?_, ?_, ?_⟩
  · rw [hmethod]
    decide
  · decide
  · decide
  · rw [toList_jobName, hmethod]
    decide

/-- The resource `node_set` becomes the resource `node`. -/
theorem routed_not_separated : ¬ ∃ f, newJob anyJob "http://localhost/rm/v1"
      (jobName (strtolower "GET") "rm" "node_set" "v1") = .ok f ∧
    Routed noFiles anyJob (strtolower "GET") "rm" "node_set" "v1" f := by
  rintro ⟨f, hf, hrouted⟩
  have hne : f.version ≠ "" := by
    rw [hrouted.version_eq]
    decide
  have hresource := (separated_newJob hf hne).1.resourceType
  rw [hrouted.resourceType_eq] at hresource
  exact hresource (by decide)

end Routing

end Jobs

end Gearbox
