import Gearbox.Assoc.Sorted
import Gearbox.Refinement.Meets
import Mathlib.Logic.Function.Basic

/-!
# The plugins of a process

`Plugin::loadAll` opens the shared objects of a directory and keeps them in a table, and
`Plugin::load` opens one of them. Both hand out pointers to the objects of the table. A
`StatusManager` finds the plugin for its type of status in a second table, which is made once, of
the first directory that a manager asks for.

An object leaves the table only in the call that has put it there, before a pointer to it is
handed out. A directory is read at most once, except after a file that cannot be opened, and not
at all if one of its files was asked for before.
-/

namespace Gearbox

namespace Plugin

open Refinement

/-- An open shared object: the error of `dlsym` for a symbol, if there is one, and what its
function `name` returns. -/
structure Library where
  dlsym : String → Option String
  typeName : String

/-- `PrivatePlugin` -/
structure PrivatePlugin where
  dl : Option Library
  error : String
  file : String
  name : String

/-- What a call finds on the disk. Reading a directory may end with an error; asking whether
a file is there always answers, so links that lead round in a circle are left out. -/
structure Disk where
  isThere : String → Bool
  entries : String → List String × Option String
  dlopen : String → Except String Library

/-- The objects that are alive, the address of the next one, and the static variables. -/
structure World where
  heap : ℕ → Option PrivatePlugin := fun _ => none
  next : ℕ := 0
  pluginsMap : String → Option (List (String × ℕ)) := fun _ => none
  statusPlugins : String → Option ℕ := fun _ => none
  loaded : Bool := false

/-- How a call ends that does not return. -/
inductive Fault where
  /-- an object is used that is not alive -/
  | dangling (p : ℕ)
  /-- a null pointer is used -/
  | null
  | std (what : String)
  | internal (message : String)

section Memory

/-- An access to an object. -/
def read (p : ℕ) : Code World Fault PrivatePlugin :=
  Code.mk fun w =>
    match w.heap p with
    | some plugin => (.ok plugin, w)
    | none => (.error (.dangling p), w)

/-- `new` -/
def alloc (plugin : PrivatePlugin) : Code World Fault ℕ :=
  Code.mk fun w =>
    (.ok w.next, { w with
      heap := Function.update w.heap w.next (some plugin), next := w.next + 1 })

/-- `delete` -/
def free (p : ℕ) : Code World Fault Unit := do
  let _ ← read p
  modify fun w => { w with heap := Function.update w.heap p none }

def freeAll : List ℕ → Code World Fault Unit
  | [] => pure ()
  | p :: ps => do
    free p
    freeAll ps

end Memory

section Table

/-- The entry of a name in the table of a directory. -/
def World.entry (w : World) (dir name : String) : Option ℕ :=
  (w.pluginsMap dir).bind (·.lookup name)

/-- The table of a directory, which `operator[]` creates. -/
def World.table (w : World) (dir : String) : List (String × ℕ) :=
  (w.pluginsMap dir).getD []

def setTable (dir : String) (table : Option (List (String × ℕ))) : Code World Fault Unit :=
  modify fun w => { w with pluginsMap := Function.update w.pluginsMap dir table }

/-- `pluginsMap[dir].insert`. A new object whose name is there already is deleted. -/
def insert (dir name : String) (plugin : PrivatePlugin) : Code World Fault Unit := do
  let p ← alloc plugin
  let table := (← get).table dir
  match table.lookup name with
  | some _ => do
    setTable dir (some table)
    free p
  | none => setTable dir (some (Assoc.insertKey name p table))

/-- `pluginsMap[dir][name]`, which is used. -/
def lookup (dir name : String) : Code World Fault ℕ := do
  match (← get).entry dir name with
  | some p => return p
  | none => throw .null

/-- `pluginsMap[dir].erase` -/
def eraseName (dir name : String) : Code World Fault Unit := do
  let p ← lookup dir name
  let table := (← get).table dir
  setTable dir (some (table.filter (·.1 ≠ name)))
  free p

/-- `pluginsMap.erase` -/
def eraseDir (dir : String) : Code World Fault Unit := do
  let table := (← get).table dir
  setTable dir none
  freeAll (table.map Prod.snd)

end Table

section Source

/-- The constructor of a `PrivatePlugin`. -/
def PrivatePlugin.new (disk : Disk) (file name : String) : PrivatePlugin :=
  match disk.dlopen file with
  | .ok lib => ⟨some lib, "", file, name⟩
  | .error e => ⟨none, e, file, name⟩

def PrivatePlugin.getError (plugin : PrivatePlugin) : String :=
  "failed to load plugin: " ++ plugin.error

/-- `PrivatePlugin::getFunc`, with the object that has the function. -/
def PrivatePlugin.getFunc (plugin : PrivatePlugin) (name : String) : Except Fault Library :=
  match plugin.dl with
  | none => .error (.std ("cannot load function on unloaded plugin: " ++ plugin.file))
  | some lib =>
    match lib.dlsym name with
    | some e => .error (.std e)
    | none => .ok lib

/-- `PrivatePlugin::getCtor` -/
def PrivatePlugin.getCtor (plugin : PrivatePlugin) : Except Fault Library :=
  plugin.getFunc (plugin.name ++ "_new")

/-- The `operator/` of a path. -/
def slash (dir leaf : String) : String :=
  if dir = "" ∨ dir.toList.getLast? = some '/' then dir ++ leaf else dir ++ "/" ++ leaf

/-- `file.substr(file.size() - ext.size()) == ext` -/
def endsWith (file ext : String) : Except Fault Bool :=
  if file.utf8ByteSize < ext.utf8ByteSize then .error (.std "basic_string::substr")
  else .ok (decide (ext.toList <:+ file.toList))

/-- The name without the extension at its end. -/
def chop (name ext : String) : String :=
  String.ofList (name.toList.take (name.length - ext.length))

/-- An exception is ignored, and the use of an object that is not alive is none. -/
def ignoring (dir name : String) : Fault → Code World Fault Unit
  | .dangling p => throw (.dangling p)
  | .null => throw .null
  | .std _ | .internal _ => eraseName dir name

/-- A plugin that has no constructor is ignored. -/
def checkCtor (dir name : String) : Code World Fault Unit :=
  tryCatch (do
    let plugin ← read (← lookup dir name)
    let _ ← (liftM plugin.getCtor : Code World Fault Library)) (ignoring dir name)

variable (ext : String) (disk : Disk)

/-- The name of the plugin in a file, if it looks like a shared object. -/
def pluginName (file leaf : String) : Except Fault (Option String) := do
  if ← endsWith file ext then return some (chop leaf ext)
  else if ← endsWith file ".so" then return some (chop leaf ".so")
  else return none

/-- One file of the directory that `Plugin::loadAll` reads. -/
def scanFile (dir leaf : String) : Code World Fault Unit := do
  let file := slash dir leaf
  match ← (liftM (pluginName ext file leaf) : Code World Fault (Option String)) with
  | none => return ()
  | some name => do
    insert dir name (.new disk file name)
    let plugin ← read (← lookup dir name)
    if plugin.dl.isNone then do
      eraseDir dir
      throw (.std plugin.getError)
    checkCtor dir name

def scan (dir : String) : List String → Code World Fault Unit
  | [] => pure ()
  | leaf :: leaves => do
    scanFile ext disk dir leaf
    scan dir leaves

/-- The loop of `Plugin::loadAll` over a directory. -/
def scanDir (dir : String) : Code World Fault Unit := do
  scan ext disk dir (disk.entries dir).1
  match (disk.entries dir).2 with
  | none => return ()
  | some e => throw (.std e)

/-- `Plugin::loadAll`. The table of a directory that is not there is empty. -/
def loadAll (dir : String) : Code World Fault (List ℕ) := do
  if ((← get).pluginsMap dir).isNone then do
    setTable dir (some [])
    if disk.isThere dir then scanDir ext disk dir
  return ((← get).table dir).map Prod.snd

/-- One round of the loop of `Plugin::load`. -/
def loadFile (dir name suffix : String) : Code World Fault Bool := do
  let dlname := slash dir (name ++ suffix)
  if disk.isThere dlname then do
    insert dir name (.new disk dlname name)
    let plugin ← read (← lookup dir name)
    if plugin.dl.isNone then do
      eraseName dir name
      throw (.std plugin.getError)
    return true
  else return false

/-- `Plugin::load` -/
def load (dir name : String) : Code World Fault ℕ := do
  if ((← get).entry dir name).isNone then do
    let first ← loadFile disk dir name ext
    let second ← loadFile disk dir name ".so"
    if !(first || second) then throw (.std ("plugin \"" ++ name ++ "\" does not exist"))
  lookup dir name

/-- The loop of `StatusPlugin::loadAll`. -/
def nameAll : List ℕ → Code World Fault Unit
  | [] => pure ()
  | p :: ps => do
    let plugin ← read p
    let lib ← (liftM (plugin.getFunc "name") : Code World Fault Library)
    modify fun w =>
      { w with statusPlugins := Function.update w.statusPlugins lib.typeName (some p) }
    nameAll ps

/-- `StatusPlugin::loadAll`, for the directory that the configuration names. -/
def statusLoadAll (pluginDir : String) : Code World Fault Unit := do
  if !(← get).loaded then do
    let plugins ← loadAll ext disk pluginDir
    nameAll plugins
    modify fun w => { w with loaded := true }

/-- `StatusPlugin::find` -/
def find (typeName pluginDir : String) : Code World Fault (Option ℕ) := do
  statusLoadAll ext disk pluginDir
  return (← get).statusPlugins typeName

/-- `StatusManager::Private::StatusType`, which is never `STATUS_NONE`. -/
inductive StatusType where
  | plugin
  | transient
  | job
  deriving DecidableEq

def stringToType (str : String) : StatusType :=
  if str = "transient" then .transient else if str = "job" then .job else .plugin

/-- `StatusManager::Private`, as far as it chooses an implementation. -/
structure StatusManager where
  pluginDir : String
  typestr : String
  type : StatusType

/-- The constructors of a `StatusManager`. -/
def StatusManager.new (typestr pluginDir : String) : StatusManager :=
  ⟨pluginDir, typestr, stringToType typestr⟩

/-- `StatusManager::operator=` -/
def StatusManager.assign (m copy : StatusManager) : StatusManager :=
  { m with pluginDir := copy.pluginDir, type := copy.type }

/-- What makes the statuses of a manager. -/
inductive Impl where
  | plugin (p : ℕ)
  | transient
  | job
  deriving DecidableEq

def pluginImpl (m : StatusManager) : Code World Fault Impl := do
  match ← find ext disk m.typestr m.pluginDir with
  | some p => do
    let plugin ← read p
    let _ ← (liftM plugin.getCtor : Code World Fault Library)
    return .plugin p
  | none =>
    throw (.internal ("no plugin found for status persistence type of " ++ m.typestr))

/-- `StatusManager::Private::newStatusImpl` -/
def newStatusImpl (m : StatusManager) : Code World Fault Impl :=
  match m.type with
  | .plugin => pluginImpl ext disk m
  | .transient => return .transient
  | .job => return .job

/-- `StatusManager::Private::newStatusCollectionImpl` -/
def newStatusCollectionImpl (m : StatusManager) : Code World Fault Impl :=
  match m.type with
  | .plugin => pluginImpl ext disk m
  | .transient | .job => throw (.internal "Unknown Status Collection Implementation Type")

/-- A call of the program. -/
inductive Call where
  | loadAll (dir : String)
  | load (dir name : String)
  | find (typeName pluginDir : String)
  | newStatusImpl (m : StatusManager)
  | newStatusCollectionImpl (m : StatusManager)

/-- What a call returns. -/
inductive Answer where
  | plugins (ps : List ℕ)
  | plugin (p : ℕ)
  | found (p : Option ℕ)
  | impl (i : Impl)

def perform : Call → Code World Fault Answer
  | .loadAll dir => return .plugins (← loadAll ext disk dir)
  | .load dir name => return .plugin (← load ext disk dir name)
  | .find typeName pluginDir => return .found (← find ext disk typeName pluginDir)
  | .newStatusImpl m => return .impl (← newStatusImpl ext disk m)
  | .newStatusCollectionImpl m => return .impl (← newStatusCollectionImpl ext disk m)

/-- The calls of a program, each with what it finds on the disk. The exceptions are caught. -/
def run : List (Disk × Call) → World → World
  | [], w => w
  | (disk, c) :: calls, w => run calls (outcome (perform ext disk c) w).2

end Source

end Plugin

end Gearbox
