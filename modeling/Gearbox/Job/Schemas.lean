import Gearbox.Config.File
import Gearbox.Job.Job

/-!
# The schemas of jobs

`JobManager::getSchema` looks for the schema of a job in a file that is named after the
operation, the component, the resource and the version of the job. The trees of the files
are kept in the map `schemas` of the process, a null pointer for a file that does not exist.
As for the configuration files, the entry of the map is made before the file is parsed.
-/

namespace Gearbox

namespace Jobs

open Json Refinement Config

variable {D : Type}

/-- The settings of a `JobManager`. Its base uri is part of the process, since it changes
with the jobs that are decoded. -/
structure Manager where
  /-- `known_job_name` -/
  known : String → Bool
  parentUri : String
  schemaDir : String
  /-- `require_schemas` of the configuration, `-1` if it is not set -/
  needed : ℤ
  /-- the static member `require_schemas` -/
  requireSchemas : Bool

/-- The file of a schema. -/
def Manager.schemaFile (m : Manager) (schema : String) : String :=
  m.schemaDir ++ "/" ++ schema ++ ".js"

/-- A job without a schema is refused. -/
def Manager.required (m : Manager) : Bool :=
  m.needed = 1 ∨ m.needed = -1 ∧ m.requireSchemas

/-- A new value of the entry of a file in `schemas`. -/
def setSchema (file : String) (schema : Option (Json.Tree D)) : Code (Process D) Failure Unit :=
  modify fun s => { s with schemas := Function.update s.schemas file (some schema) }

/-- `getSchema` without the record of the answer. -/
def loadSchema (sys : System D) (file : String) :
    Code (Process D) Failure (Option (Json.Tree D)) := do
  match (← get).schemas file with
  | some schema => return schema
  | none =>
    match sys.file file with
    | .absent =>
      setSchema file none
      return none
    | content =>
      let parsed := parseFile sys.env file content
      setSchema file (some (Tree.fresh parsed.2))
      parsed.1
      return some (Tree.fresh parsed.2)

/-- `getSchema` -/
def fileSchema (sys : System D) (m : Manager) (schema : String) :
    Code (Process D) Failure (Option (Json.Tree D)) :=
  answering (.schema (m.schemaFile schema)) (loadSchema sys (m.schemaFile schema))

/-- The name of the schema of a job. -/
def schemaName (f : Fields) : String :=
  f.operation.text ++ "-" ++ f.component ++ "-" ++ f.resourceType ++ "-" ++ f.version

/-- The name of the schema that is used if there is none for the component. -/
def globalSchemaName (f : Fields) : String :=
  f.operation.text ++ "-global" ++ "-" ++ f.resourceType ++ "-" ++ f.version

/-- `JobManager::getSchema` -/
def getSchema (sys : System D) (m : Manager) (f : Fields) :
    Code (Process D) Failure (Option (Json.Tree D)) := do
  match ← fileSchema sys m (schemaName f) with
  | some schema => return some schema
  | none =>
    match ← fileSchema sys m (globalSchemaName f) with
    | some schema => return some schema
    | none =>
      if m.required then
        throw (.std ("Required schema for job " ++ f.name ++ " not found!"))
      else
        return none

section Load

variable {sys : System D} {s : Process D}

/-- The first look-up of a file: how it ends, and what is in the map then. -/
def firstSchema (sys : System D) (file : String) :
    Except Failure (Option (Json.Tree D)) × Option (Json.Tree D) :=
  match sys.file file with
  | .absent => (.ok none, none)
  | content =>
    let parsed := parseFile sys.env file content
    (parsed.1.map fun _ => some (Tree.fresh parsed.2), some (Tree.fresh parsed.2))

theorem outcome_loadSchema_some {file : String} {schema : Option (Json.Tree D)}
    (h : s.schemas file = some schema) :
    outcome (loadSchema sys file) s = (.ok schema, s) := by
  rw [loadSchema, outcome_bind_ok (outcome_get s), h]
  rfl

theorem outcome_loadSchema_none {file : String} (h : s.schemas file = none) :
    outcome (loadSchema sys file) s = ((firstSchema sys file).1, { s with
      schemas := Function.update s.schemas file (some (firstSchema sys file).2) }) := by
  rw [loadSchema, outcome_bind_ok (outcome_get s), h, firstSchema]
  cases sys.file file with
  | absent => rfl
  | unreadable => rfl
  | text content =>
      simp only [parseFile]
      cases parseInto sys.env content with
      | mk r j =>
          cases r with
          | error e => rfl
          | ok u => rfl

/-- What a look-up of a file finds. -/
def schemaAt (sys : System D) (s : Process D) (file : String) :
    Except Failure (Option (Json.Tree D)) :=
  match s.schemas file with
  | some schema => .ok schema
  | none => (firstSchema sys file).1

/-- Every look-up finds in `s'` what it finds in `s`, and the base uri is the same. -/
structure Steady (sys : System D) (s s' : Process D) : Prop where
  schemaAt_eq : ∀ file, schemaAt sys s' file = schemaAt sys s file
  baseUri_eq : s'.baseUri = s.baseUri

theorem Steady.refl (sys : System D) (s : Process D) : Steady sys s s :=
  ⟨fun _ => rfl, rfl⟩

theorem Steady.trans {s₁ s₂ s₃ : Process D} (h : Steady sys s₁ s₂) (h' : Steady sys s₂ s₃) :
    Steady sys s₁ s₃ where
  schemaAt_eq file := (h'.schemaAt_eq file).trans (h.schemaAt_eq file)
  baseUri_eq := h'.baseUri_eq.trans h.baseUri_eq

theorem firstSchema_of_ok {file : String} {schema : Option (Json.Tree D)}
    (h : (firstSchema sys file).1 = .ok schema) : (firstSchema sys file).2 = schema := by
  rw [firstSchema] at h ⊢
  cases hfile : sys.file file with
  | absent =>
      rw [hfile] at h
      cases h
      rfl
  | unreadable =>
      rw [hfile] at h
      cases h
  | text content =>
      rw [hfile] at h
      simp only at h ⊢
      cases hparse : (parseFile sys.env file (.text content)).1 with
      | error e =>
          rw [hparse] at h
          cases h
      | ok u =>
          rw [hparse] at h
          cases h
          rfl

/-- The look-up of a file. -/
theorem meets_fileSchema (m : Manager) (schema : String) :
    Meets (outcome (fileSchema sys m schema) s) (value? (schemaAt sys s (m.schemaFile schema)))
      (fun _ => True) (fun found found' s' => found = found' ∧ Steady sys s s') := by
  rw [fileSchema, outcome_answering, schemaAt]
  cases hcached : s.schemas (m.schemaFile schema) with
  | some found =>
      rw [outcome_loadSchema_some hcached]
      exact ⟨trivial, found, rfl, rfl, fun _ => rfl, rfl⟩
  | none =>
      rw [outcome_loadSchema_none hcached]
      cases hfirst : (firstSchema sys (m.schemaFile schema)).1 with
      | error e => exact ⟨trivial, e, rfl⟩
      | ok found =>
          refine ⟨trivial, found, rfl, rfl, ?_, rfl⟩
          intro file
          rw [schemaAt, schemaAt]
          by_cases hfile : file = m.schemaFile schema
          · subst hfile
            rw [hcached]
            simp only [Function.update_self, firstSchema_of_ok hfirst, hfirst]
          · simp only [Function.update_of_ne hfile]

end Load

section Found

variable {sys : System D} {s : Process D}

/-- The schema that `getSchema` returns, if it returns. -/
def foundSchema (sys : System D) (m : Manager) (s : Process D) (f : Fields) :
    Option (Option (Json.Tree D)) := do
  match ← value? (schemaAt sys s (m.schemaFile (schemaName f))) with
  | some schema => return some schema
  | none =>
    match ← value? (schemaAt sys s (m.schemaFile (globalSchemaName f))) with
    | some schema => return some schema
    | none => if m.required then none else return none

/-- `getSchema` returns the schema that it finds. -/
theorem meets_getSchema (m : Manager) (f : Fields) :
    Meets (outcome (getSchema sys m f) s) (foundSchema sys m s f) (fun _ => True)
      (fun found found' s' => found = found' ∧ Steady sys s s') := by
  rw [getSchema, foundSchema]
  refine (meets_fileSchema m (schemaName f)).bind ?_
  rintro own own' s₁ - - ⟨rfl, hsteady₁⟩
  cases own with
  | some schema => exact meets_pure trivial ⟨rfl, hsteady₁⟩
  | none =>
      rw [← hsteady₁.schemaAt_eq]
      refine (meets_fileSchema m (globalSchemaName f)).bind ?_
      rintro shared shared' s₂ - - ⟨rfl, hsteady₂⟩
      cases shared with
      | some schema => exact meets_pure trivial ⟨rfl, hsteady₁.trans hsteady₂⟩
      | none =>
          cases m.required with
          | true => exact meets_error rfl trivial
          | false => exact meets_pure trivial ⟨rfl, hsteady₁.trans hsteady₂⟩

theorem answers_fileSchema (sys : System D) (m : Manager) (schema : String)
    (s : Process D) : (outcome (fileSchema sys m schema) s).2.answers =
      s.answers ++ [.schema (m.schemaFile schema)
        (outcome (loadSchema sys (m.schemaFile schema)) s).1] := by
  rw [fileSchema, outcome_answering]
  cases hcached : s.schemas (m.schemaFile schema) with
  | some found => rw [outcome_loadSchema_some hcached]
  | none => rw [outcome_loadSchema_none hcached]

/-- The first file that `getSchema` asks for. -/
theorem answers_getSchema (sys : System D) (m : Manager) (f : Fields) (s : Process D) :
    ∃ result rest, (outcome (getSchema sys m f) s).2.answers =
      s.answers ++ .schema (m.schemaFile (schemaName f)) result :: rest := by
  have hkept : ∀ answers schema, Keeps (fun s => answers <+: s.answers)
      (fileSchema sys m schema) := by
    intro answers schema s hprefix
    rw [answers_fileSchema]
    exact hprefix.trans (List.prefix_append _ _)
  have hfirst : s.answers ++ [.schema (m.schemaFile (schemaName f))
      (outcome (loadSchema sys (m.schemaFile (schemaName f))) s).1] <+:
      (outcome (getSchema sys m f) s).2.answers := by
    have hown := answers_fileSchema sys m (schemaName f) s
    rw [getSchema]
    cases houtcome : outcome (fileSchema sys m (schemaName f)) s with
    | mk r s' =>
        rw [houtcome] at hown
        cases r with
        | error e =>
            rw [outcome_bind_error houtcome]
            exact ⟨[], by rw [List.append_nil]; exact hown.symm⟩
        | ok found =>
            rw [outcome_bind_ok houtcome, ← hown]
            cases found with
            | some schema => exact List.prefix_rfl
            | none =>
                refine Keeps.bind (hkept _ _) ?_ s' List.prefix_rfl
                intro shared
                cases shared with
                | some schema => exact keeps_pure _
                | none =>
                    cases m.required with
                    | true => exact keeps_throw _
                    | false => exact keeps_pure _
  obtain ⟨rest, hrest⟩ := hfirst
  exact ⟨_, rest, hrest.symm.trans (List.append_assoc _ _ _)⟩

end Found

end Jobs

end Gearbox
