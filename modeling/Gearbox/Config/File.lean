import Mathlib.Logic.Function.Basic
import Gearbox.Json.Copy
import Gearbox.Json.Text

/-!
# Configuration files

`ConfigFile` reads a top-level file and merges the files of a directory `config.d` into
it. The result is kept in the map `CONFIG_MAP` of the process, under the name of the file.
The entry of the map is made before the file is parsed, and everything happens in place.

A file of `config.d` with the base name `b` is about the section `b` of the configuration.
If the section exists, the file is parsed into a temporary tree, and the members that the
section does not have are copied. Otherwise the section is created, and the file is parsed
into it. Both are in one `try` block.
-/

namespace Gearbox

namespace Config

open Json Refinement

variable {D : Type}

/-- A file as the process finds it. -/
inductive File where
  | absent
  | unreadable
  | text (content : Text)

/-- What the process takes from the system. -/
structure System (D : Type) where
  env : Env D
  file : String → File
  /-- the files `*.conf` of a directory with their base names, in the order of `glob` -/
  conf : String → List (String × File)
  /-- `server_root` -/
  serverRoot : String

/-- What one of the two caches answered when it was asked for a file. -/
inductive Answer (D : Type) where
  | config (file : String) (result : Except Failure (Json D))
  | schema (file : String) (result : Except Failure (Option (Json.Tree D)))

/-- The state of a process: `CONFIG_MAP`, the map `schemas`, and the base uri of its job
manager. The answers of the caches so far are kept as a history. -/
structure Process (D : Type) where
  configs : String → Option (Json D)
  schemas : String → Option (Option (Json.Tree D))
  baseUri : String
  answers : List (Answer D)

/-- A process that has read no file yet. -/
def Process.start : Process D where
  configs := fun _ => none
  schemas := fun _ => none
  baseUri := ""
  answers := []

/-- The tree of a file, if it can be read and parsed. -/
def File.complete? (env : Env D) : File → Option (Json D)
  | .text t => Json.complete? env t
  | _ => none

/-- `Json::parseFile` of a new node: how it ends, and what the node holds then. -/
def parseFile (env : Env D) (path : String) : File → Except Failure Unit × Json D
  | .text t => parseInto env t
  | _ => (.error (.std ("Could not open " ++ path)), .undef)

/-- `server_abspath` -/
def serverAbspath (root path : String) : Except Failure String :=
  match path.toList with
  | [] => .error (.std "basic_string::at")
  | c :: _ => if c ≠ '/' ∧ c ≠ '.' then .ok (root ++ "/" ++ path) else .ok path

/-- `Json::operator[]` for a key: a new key gets a new node. -/
def addKey (k : String) : Json D → Except Failure (Json D)
  | .object o => .ok (.object (if (o.lookup k).isSome then o else Assoc.insertKey k .undef o))
  | .undef => .ok (.object [(k, .undef)])
  | j => .error (.json ("cannot access object key \"" ++ k ++ "\" on type "
      ++ j.type.typeToName))

/-- A program on a tree, run at a member of an object. -/
def atKey (k : String) (m : Code (Json D) Failure Unit) : Code (Json D) Failure Unit :=
  Code.mk fun content =>
    match content.member k with
    | some section' =>
      let r := outcome m section'
      (r.1, content.modifyStep (.key k) fun _ => r.2)
    | none => (.error .undefined, content)

/-- A `try` block that catches `std::exception`. -/
def catching {σ : Type} (m : Code σ Failure Unit) : Code σ Failure Unit :=
  Code.mk fun s =>
    match outcome m s with
    | (.error e, s') => if e.isException then (.ok (), s') else (.error e, s')
    | r => r

/-- The loop over the members of a file of `config.d`, at a section. -/
def mergeMembers : List (String × Json D) → Code (Json D) Failure Unit
  | [] => return ()
  | (k, v) :: rest => do
    if (← get).hasKey k then
      mergeMembers rest
    else
      set (← addKey k (← get))
      let v' ← copy v
      modify fun section' => section'.modifyStep (.key k) fun _ => v'
      mergeMembers rest

/-- A file about a section that exists, parsed into a temporary tree. -/
def mergeSection (base : String) (parsed : Except Failure Unit × Json D) :
    Code (Json D) Failure Unit := do
  parsed.1
  let members ← parsed.2.asObject
  atKey base (mergeMembers members)

/-- A file about a section that does not exist, parsed into the section. -/
def newSection (base : String) (parsed : Except Failure Unit × Json D) :
    Code (Json D) Failure Unit := do
  set (← addKey base (← get))
  modify fun content => content.modifyStep (.key base) fun _ => parsed.2
  parsed.1

/-- One file of `config.d`. -/
def mergeFile (env : Env D) (dir base : String) (file : File) :
    Code (Json D) Failure Unit :=
  let parsed := parseFile env (dir ++ "/" ++ base ++ ".conf") file
  catching do
    if (← get).hasKey base then mergeSection base parsed else newSection base parsed

/-- The files of `config.d`. -/
def mergeFiles (env : Env D) (dir : String) :
    List (String × File) → Code (Json D) Failure Unit
  | [] => return ()
  | (base, file) :: rest => do
    mergeFile env dir base file
    mergeFiles env dir rest

/-- The directory with the other files. -/
def configDir (sys : System D) (content : Json D) : Except Failure String :=
  match content.member "config_dir" with
  | some dir => do serverAbspath sys.serverRoot (← dir.asString)
  | none => .ok (sys.serverRoot ++ "/config.d")

/-- A new value of the entry of a file in `CONFIG_MAP`. -/
def setConfig (file : String) (content : Json D) : Code (Process D) Failure Unit :=
  modify fun s => { s with configs := Function.update s.configs file (some content) }

/-- `ConfigFile::Private::Private` without the record of the answer. -/
def loadConfig (sys : System D) (file : String) : Code (Process D) Failure (Json D) := do
  match (← get).configs file with
  | some content => return content
  | none =>
    let top := parseFile sys.env file (sys.file file)
    setConfig file top.2
    top.1
    let dir ← configDir sys top.2
    let merged := outcome (mergeFiles sys.env dir (sys.conf dir)) top.2
    setConfig file merged.2
    merged.1
    return merged.2

/-- A cache is asked, and the answer is added to the history. -/
def answering {α : Type} (record : Except Failure α → Answer D)
    (m : Code (Process D) Failure α) : Code (Process D) Failure α :=
  Code.mk fun s =>
    let r := outcome m s
    (r.1, { r.2 with answers := r.2.answers ++ [record r.1] })

/-- `ConfigFile::ConfigFile` -/
def configFile (sys : System D) (file : String) : Code (Process D) Failure (Json D) :=
  answering (.config file) (loadConfig sys file)

section Load

theorem outcome_setConfig (file : String) (content : Json D) (s : Process D) :
    outcome (setConfig file content) s =
      (.ok (), { s with configs := Function.update s.configs file (some content) }) := rfl

theorem outcome_answering {α : Type} (record : Except Failure α → Answer D)
    (m : Code (Process D) Failure α) (s : Process D) :
    outcome (answering record m) s = ((outcome m s).1,
      { (outcome m s).2 with
        answers := (outcome m s).2.answers ++ [record (outcome m s).1] }) := rfl

/-- The first construction from a file: how it ends, and what is in the cache then. -/
def firstLoad (sys : System D) (file : String) : Except Failure (Json D) × Json D :=
  let top := parseFile sys.env file (sys.file file)
  match top.1 with
  | .error e => (.error e, top.2)
  | .ok _ =>
    match configDir sys top.2 with
    | .error e => (.error e, top.2)
    | .ok dir =>
      let merged := outcome (mergeFiles sys.env dir (sys.conf dir)) top.2
      (merged.1.map fun _ => merged.2, merged.2)

theorem outcome_loadConfig_some {sys : System D} {file : String} {s : Process D}
    {content : Json D} (h : s.configs file = some content) :
    outcome (loadConfig sys file) s = (.ok content, s) := by
  rw [loadConfig, outcome_bind_ok (outcome_get s), h]
  rfl

theorem outcome_loadConfig_none {sys : System D} {file : String} {s : Process D}
    (h : s.configs file = none) :
    outcome (loadConfig sys file) s = ((firstLoad sys file).1, { s with
      configs := Function.update s.configs file (some (firstLoad sys file).2) }) := by
  rw [loadConfig, outcome_bind_ok (outcome_get s), h, firstLoad]
  simp only
  rw [outcome_bind_ok (outcome_setConfig _ _ _)]
  cases htop : (parseFile sys.env file (sys.file file)).1 with
  | error e => rw [outcome_bind_error (outcome_lift _ _)]
  | ok u =>
      rw [outcome_bind_ok (outcome_lift _ _)]
      cases hdir : configDir sys (parseFile sys.env file (sys.file file)).2 with
      | error e => rw [outcome_bind_error (outcome_lift _ _)]
      | ok dir =>
          rw [outcome_bind_ok (outcome_lift _ _),
            outcome_bind_ok (outcome_setConfig _ _ _)]
          simp only [Function.update_idem]
          cases outcome (mergeFiles sys.env dir (sys.conf dir))
            (parseFile sys.env file (sys.file file)).2 with
          | mk r j =>
              cases r with
              | error e => rfl
              | ok u => rfl

end Load

end Config

end Gearbox
