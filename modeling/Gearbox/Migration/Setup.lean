import Gearbox.Refinement.Ladder
import Gearbox.Texts.Escape
import Mathlib.Algebra.Order.Ring.Nat
import Mathlib.Data.List.DropRight

/-!
# Setup of a database

`dbsetup` brings a database to the version of a release. A database that does not exist is created
from the schema of the release, and otherwise the patches of the migration directory are applied
one after the other. With every patch the script that undoes it is stored in the version table,
so that a later setup of an older release, which does not have these scripts, can go back.

A script is given to the client of the database on its standard input. What the client makes of it
is a parameter of the model, as are the tables other than the version table.
-/

namespace Gearbox

namespace Migration

open Refinement Texts

/-- The bytes of a file or of the output of a command. -/
abbrev Bytes :=
  List UInt8

/-- The bytes of a text of the script itself. -/
def ascii (text : String) : Bytes :=
  text.toList.map fun c => UInt8.ofNat c.toNat

/-- A newline. -/
def newline : UInt8 :=
  10

/-- `DB_TYPE` -/
inductive DbType where
  | sqlite3
  | mysql
  deriving DecidableEq

/-- The table `version`, without and with the column `revert`. -/
inductive VersionTable where
  | plain (versions : List ℕ)
  | revertible (rows : List (ℕ × Option Bytes))

namespace VersionTable

/-- The column `revert` is there. -/
def hasRevert : VersionTable → Bool
  | plain _ => false
  | revertible _ => true

/-- The rows, where a column that is not there is blank. -/
def rows : VersionTable → List (ℕ × Option Bytes)
  | plain versions => versions.map fun v => (v, none)
  | revertible rows => rows

/-- `SELECT max(version) FROM version;` -/
def maxVersion (t : VersionTable) : Option ℕ :=
  (t.rows.map Prod.fst).max?

/-- `INSERT INTO version VALUES(v, revert);` -/
def insert (v : ℕ) (revert : Bytes) : VersionTable → Option VersionTable
  | plain _ => none
  | revertible rows => some (revertible (rows ++ [(v, some revert)]))

/-- `DELETE FROM version WHERE version = v;` -/
def delete (v : ℕ) : VersionTable → VersionTable
  | plain versions => plain (versions.filter (· ≠ v))
  | revertible rows => revertible (rows.filter (·.1 ≠ v))

/-- `SELECT revert FROM version WHERE version = v;` -/
def selectRevert (v : ℕ) : VersionTable → Option (List (Option Bytes))
  | plain _ => none
  | revertible rows => some ((rows.filter (·.1 = v)).map Prod.snd)

end VersionTable

/-- A database, where a database that does not exist is an empty one. -/
structure Database (σ : Type) where
  tables : σ
  version : Option VersionTable

/-- The client of the database: `DB_TYPE`, and how a script on its standard input ends and what it
leaves. -/
structure Client (σ : Type) where
  type : DbType
  exec : Bytes → Database σ → Bool × Database σ

/-- The files `N.sql` and `N.undo.sql` of a migration directory. -/
structure Directory where
  patches : List (ℕ × Bytes)
  undos : List (ℕ × Bytes)

/-- What a release brings: `DB_SQL` and `DB_SQL_MIGRATION`. -/
structure Release where
  sql : Bytes
  path : String
  migration : Option Directory

section Texts

/-- `\w` -/
def isWord (b : UInt8) : Bool :=
  (48 ≤ b.toNat && b.toNat ≤ 57) || (65 ≤ b.toNat && b.toNat ≤ 90) || b.toNat = 95 ||
    (97 ≤ b.toNat && b.toNat ≤ 122)

/-- `$(...)`: the output of a command without zero bytes and without newlines at its end. -/
def substituted (output : Bytes) : Bytes :=
  (output.filter (· ≠ 0)).rdropWhile (· = newline)

/-- An argument that `echo` takes for options. -/
def isOption (arg : Bytes) : Bool :=
  arg.head? = some 45 && arg.tail ≠ [] && arg.tail.all fun b => b = 110 || b = 101 || b = 69

/-- `echo "$arg"` -/
def echo (arg : Bytes) : Bytes :=
  if isOption arg then if arg.contains 110 then [] else [newline] else arg ++ [newline]

/-- The script that undoes a patch, as it is stored. -/
def undoenc (undo : Bytes) : Bytes :=
  substituted (escape isWord undo)

/-- A field of the output of the client. -/
def field (type : DbType) : Option Bytes → Bytes
  | some text => text
  | none => match type with
    | .sqlite3 => []
    | .mysql => ascii "NULL"

/-- `echo $enc`, where the words of the variable are the fields that are not empty. -/
def echoWords (fields : List Bytes) : Bytes :=
  [32].intercalate (fields.filter (· ≠ [])) ++ [newline]

end Texts

section Steps

variable {σ : Type} (client : Client σ) (name : String) (release : Release)

/-- `get_db_version` -/
def getDbVersion (db : Database σ) : Option ℕ :=
  match db.version with
  | none => some 0
  | some t => t.maxVersion

/-- `get_db_version_undo` -/
def getDbVersionUndo (v : ℕ) (db : Database σ) : Bytes :=
  let fields := ((db.version.bind fun t => t.selectRevert v).getD []).map (field client.type)
  unescape (echoWords fields)

/-- A script on the standard input of the client. -/
def feed (script : Bytes) (message : String) : Code (Database σ) String Unit :=
  Code.mk fun db =>
    let (ok, db) := client.exec script db
    if ok then (.ok (), db) else (.error message, db)

/-- A statement about the version table. -/
def statement (f : VersionTable → Option VersionTable) (message : String) :
    Code (Database σ) String Unit :=
  Code.mk fun db =>
    match db.version.bind f with
    | some t => (.ok (), { db with version := some t })
    | none => (.error message, db)

/-- `seq first last` -/
def seq (first last : ℕ) : List ℕ :=
  List.range' first (last + 1 - first)

/-- A version as it is printed. -/
def showVersion : Option ℕ → String
  | some v => toString v
  | none => match client.type with
    | .sqlite3 => ""
    | .mysql => "NULL"

/-- `Verify DB version` -/
def verify (target : ℕ) : Code (Database σ) String Unit := do
  let ver := getDbVersion (← get)
  if ver = some target then pure ()
  else throw s!"db version expected to be \"{target}\", got \"{showVersion client ver}\""

/-- The files of the migration directory. -/
def Release.files : Directory :=
  release.migration.getD ⟨[], []⟩

/-- The body of the loop of `upgrade_db`. -/
def upgradeStep (v : ℕ) : Code (Database σ) String Unit := do
  let file := release.path ++ "/" ++ toString v ++ ".sql"
  let undo := release.path ++ "/" ++ toString v ++ ".undo.sql"
  match release.files.patches.lookup v with
  | none => throw ("upgrade failed: " ++ file ++ " does not exists")
  | some patch =>
    match release.files.undos.lookup v with
    | none => throw ("upgrade failed: " ++ undo ++ " does not exists")
    | some script => do
      feed client patch "upgrade failed"
      statement (·.insert v (undoenc script)) "updating version failed"

/-- `upgrade_db` -/
def upgradeDb (current target : ℕ) : Code (Database σ) String Unit := do
  each (upgradeStep client release) (seq (current + 1) target)
  verify client target

/-- The body of the loop of `downgrade_db`. -/
def downgradeStep (v : ℕ) : Code (Database σ) String Unit := do
  let undo := substituted (getDbVersionUndo client v (← get))
  if undo = [] then
    throw ("downgrade failed, no undo information for version " ++ toString v)
  else do
    feed client (echo undo) "downgrade failed"
    statement (fun t => some (t.delete v)) "downgrade failed"

/-- `downgrade_db` -/
def downgradeDb (current target : ℕ) : Code (Database σ) String Unit := do
  each (downgradeStep client) (seq (target + 1) current).reverse
  verify client target

/-- The version of the release, if it is a number. -/
def Release.lastver : Option ℕ :=
  match release.migration with
  | none => some 1
  | some files => (files.patches.map Prod.fst).max?

/-- `modify_db` -/
def modifyDb : Code (Database σ) String Unit := do
  match getDbVersion (← get) with
  | none =>
    match client.type with
    | .sqlite3 => throw ("Unable to determine current database version for " ++ name)
    | .mysql => pure ()
  | some dbVer =>
    match release.lastver with
    | none => pure ()
    | some lastver =>
      if dbVer < lastver then upgradeDb client release dbVer lastver
      else if lastver < dbVer then downgradeDb client dbVer lastver
      else pure ()

/-- `check_db_exists` -/
def checkDbExists (db : Database σ) : Bool :=
  match getDbVersion db with
  | none => false
  | some ver => 0 < ver

/-- `create_db` -/
def createDb : Code (Database σ) String Unit :=
  feed client release.sql "Failed to create database!"

/-- `setup_db` -/
def setupDb : Code (Database σ) String Unit := do
  if checkDbExists (← get) then modifyDb client name release else createDb client release

end Steps

end Migration

end Gearbox
