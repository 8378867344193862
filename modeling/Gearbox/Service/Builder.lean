import Mathlib.Data.List.Nodup
import Gearbox.Assoc.Sorted
import Gearbox.Refinement.Meets

/-!
# The builder of the services

`Gearbox::Service::Builder` brings the directories of the services in line with the
configuration. `generate` repairs the services that stay, stops and removes those that are not
configured any more, and creates the missing ones. A directory is removed when `svok` says that
`supervise` has stopped; it is asked up to five times.

The file system is a map from the names under `service_dir` to the files of a service, and the
names under `supervised_dir`. File operations succeed, except that `read_file` does not take a
file that is missing or empty. The order in which Perl lists the keys of a hash is a parameter,
and so are the answers of `svok`.
-/

namespace Gearbox

namespace Service

open Refinement

/-- `Gearbox::Service::Entry` -/
structure Entry where
  name : String
  command : String
  user : String
  logcmd : String
  deriving DecidableEq, Repr

/-- The files of a service; `main` is the directory of `multilog`. -/
structure ServiceDir where
  run : Option String
  logRun : Option String
  main : Bool
  deriving DecidableEq, Repr

/-- The two directories. -/
structure Files where
  services : Assoc.Map String ServiceDir
  supervised : List String

/-- A program of the builder; a `croak` ends it with a message. -/
abbrev BuilderM : Type → Type :=
  Code Files String

/-- Perl takes the empty string and `"0"` for false. -/
def isFalse (v : String) : Bool :=
  v = "" ∨ v = "0"

/-- `generate_cmd`, the template with the user and the command. -/
def Entry.generateCmd (e : Entry) : String :=
  "#!/bin/sh\n\nexec 2>&1\nexec softlimit -c = setuidgid " ++ e.user ++ " " ++ e.command ++ "\n"

def Entry.generateLogger (e : Entry) : String :=
  let logcmd := if isFalse e.logcmd then "multilog t ./main" else e.logcmd
  "#! /bin/sh\n\nexec 2>&1\nexec setuidgid nobody " ++ logcmd ++ "\n"

/-- The directory after `create`. -/
def Entry.files (e : Entry) : ServiceDir where
  run := some e.generateCmd
  logRun := some e.generateLogger
  main := isFalse e.logcmd

def Entry.create (e : Entry) : BuilderM Unit :=
  modify fun fs => { fs with services := fs.services.set e.name e.files }

/-- `read_file` of a file, if there is one. -/
def readFile (path : String) (file : Option String) : Except String String :=
  match file with
  | some contents => if contents = "" then .error ("Invalid file " ++ path) else .ok contents
  | none => .error ("Invalid file " ++ path)

/-- The first read of `ensure`. -/
def readRun (e : Entry) (fs : Files) : Except String String :=
  readFile (e.name ++ "/run") ((fs.services.get e.name).bind ServiceDir.run)

/-- The second read of `ensure`. -/
def readLogRun (e : Entry) (fs : Files) : Except String String :=
  readFile (e.name ++ "/log/run") ((fs.services.get e.name).bind ServiceDir.logRun)

/-- `ensure`, without the restart of the service. -/
def Entry.ensure (e : Entry) : BuilderM Unit := do
  let fs ← get
  let run ← liftM (readRun e fs)
  let logRun ← liftM (readLogRun e fs)
  if run = e.generateCmd ∧ logRun = e.generateLogger then return () else e.create

/-- The entry under a name in the hash of the services; the last one counts. -/
def entryOf (services : List Entry) (name : String) : Option Entry :=
  services.reverse.find? fun e => e.name = name

def ensureServices (services : List Entry) : List String → BuilderM Unit
  | [] => return ()
  | name :: rest => do
      match entryOf services name with
      | some e => e.ensure
      | none => throw "Can't call method \"ensure\" on an undefined value"
      ensureServices services rest

/-- `get_status` -/
def getStatus (rc : ℤ) : ℤ :=
  if rc = -1 ∨ rc % 128 ≠ 0 then -1 else rc / 256

/-- The loop that asks `svok`, after `count` checks: the number of checks and the last
answer. -/
def checkSvok (svok : ℕ → ℤ) (count : ℕ) : ℕ × ℤ :=
  let rc := getStatus (svok count)
  if rc ≠ 100 ∧ count + 1 < 5 then checkSvok svok (count + 1) else (count + 1, rc)
termination_by 5 - count

/-- The first loop of `remove_services`. -/
def unlinkServices (names : List String) : BuilderM Unit :=
  modify fun fs => { fs with supervised := fs.supervised.filter fun name => name ∉ names }

/-- The second loop of `remove_services`; `svok name k` is the answer to check number `k`. -/
def removeDirectories (svok : String → ℕ → ℤ) : List String → BuilderM Unit
  | [] => return ()
  | name :: rest => do
      if (checkSvok (svok name) 0).1 < 5 then
        modify fun fs => { fs with services := fs.services.erase name }
      removeDirectories svok rest

def removeServices (svok : String → ℕ → ℤ) (names : List String) : BuilderM Unit := do
  unlinkServices names
  removeDirectories svok names

/-- `cur_services` -/
def Files.curServices (fs : Files) : List String :=
  fs.services.entries.map Prod.fst

/-- The symbolic link under `supervised_dir`, if there is none. -/
def supervise (name : String) : BuilderM Unit :=
  modify fun fs =>
    if name ∈ fs.supervised then fs else { fs with supervised := name :: fs.supervised }

def createMissing (current : List String) (e : Entry) : BuilderM Unit :=
  if e.name ∉ current then e.create else return ()

/-- The loop that adds the remaining services. -/
def addServices (current : List String) : List Entry → BuilderM Unit
  | [] => return ()
  | e :: rest => do
      createMissing current e
      supervise e.name
      addServices current rest

/-- `Builder::generate` -/
def generate (keys : List String → List String) (svok : String → ℕ → ℤ)
    (services : List Entry) : BuilderM Unit := do
  let curSvcs := (← get).curServices
  let names := services.map Entry.name
  ensureServices services (keys (curSvcs.filter fun name => name ∈ names))
  removeServices svok (keys (curSvcs.filter fun name => name ∉ names))
  let current := (← get).curServices
  addServices current services

section Parts

variable {fs : Files} {e : Entry}

/-- The scripts of the service are those of the entry. -/
def Scripts (e : Entry) (d : ServiceDir) : Prop :=
  d.run = some e.generateCmd ∧ d.logRun = some e.generateLogger

/-- The scripts of the service can be read. -/
def Readable (d : ServiceDir) : Prop :=
  ∃ run logRun, d.run = some run ∧ run ≠ "" ∧ d.logRun = some logRun ∧ logRun ≠ ""

/-- One part of the file system became another: the services under the names have their
scripts, and nothing else has changed. -/
structure Ensured (services : List Entry) (names : List String) (fs fs' : Files) : Prop where
  scripts : ∀ name ∈ names, ∀ e, entryOf services name = some e →
    ∃ d, fs'.services.get name = some d ∧ Scripts e d
  others : ∀ name ∉ names, fs'.services.get name = fs.services.get name
  supervised : fs'.supervised = fs.supervised

theorem readFile_eq_ok {path contents : String} {file : Option String} :
    readFile path file = .ok contents ↔ file = some contents ∧ contents ≠ "" := by
  cases file with
  | none => simp [readFile]
  | some text =>
      by_cases htext : text = ""
      · simp only [readFile, htext, if_true, Option.some.injEq]
        constructor
        · intro heq
          cases heq
        · rintro ⟨rfl, hne⟩
          exact absurd rfl hne
      · simp only [readFile, if_neg htext, Except.ok.injEq, Option.some.injEq]
        constructor
        · rintro rfl
          exact ⟨rfl, htext⟩
        · exact fun h => h.1

theorem outcome_create (fs : Files) : outcome e.create fs =
    (.ok (), { fs with services := fs.services.set e.name e.files }) :=
  outcome_modify _ fs

theorem outcome_ensure_ok {run logRun : String} (hrun : readRun e fs = .ok run)
    (hlog : readLogRun e fs = .ok logRun) : outcome e.ensure fs =
      if run = e.generateCmd ∧ logRun = e.generateLogger then (.ok (), fs)
      else (.ok (), { fs with services := fs.services.set e.name e.files }) := by
  have hreadRun : outcome (liftM (readRun e fs) : BuilderM String) fs = (.ok run, fs) := by
    rw [outcome_lift, hrun]
  have hreadLog : outcome (liftM (readLogRun e fs) : BuilderM String) fs =
      (.ok logRun, fs) := by
    rw [outcome_lift, hlog]
  rw [Entry.ensure, outcome_bind_ok (outcome_get fs), outcome_bind_ok hreadRun,
    outcome_bind_ok hreadLog]
  split
  · rfl
  · exact outcome_create fs

theorem outcome_ensure_error (h : ¬ ∃ run logRun, readRun e fs = .ok run ∧
    readLogRun e fs = .ok logRun) : ∃ msg, outcome e.ensure fs = (.error msg, fs) := by
  rw [Entry.ensure, outcome_bind_ok (outcome_get fs)]
  cases hrun : readRun e fs with
  | error msg => exact ⟨msg, outcome_bind_error (outcome_lift _ fs)⟩
  | ok run =>
      cases hlog : readLogRun e fs with
      | error msg =>
          refine ⟨msg, ?_⟩
          rw [outcome_bind_ok (outcome_lift _ fs)]
          exact outcome_bind_error (outcome_lift _ fs)
      | ok logRun => exact absurd ⟨run, logRun, hrun, hlog⟩ h

/-- Both reads succeed if the scripts can be read. -/
theorem readable_iff {d : ServiceDir} (hd : fs.services.get e.name = some d) :
    Readable d ↔ ∃ run logRun, readRun e fs = .ok run ∧ readLogRun e fs = .ok logRun := by
  simp only [Readable, readRun, readLogRun, readFile_eq_ok, hd, Option.bind_some, and_assoc]

/-- A service whose scripts can be read has the right ones afterwards. -/
theorem outcome_ensure {d : ServiceDir} (hd : fs.services.get e.name = some d)
    (h : Readable d) : ∃ fs', outcome e.ensure fs = (.ok (), fs') ∧
      (∃ d', fs'.services.get e.name = some d' ∧ Scripts e d') ∧
      (∀ name ≠ e.name, fs'.services.get name = fs.services.get name) ∧
      fs'.supervised = fs.supervised := by
  obtain ⟨run, logRun, hrun, hlog⟩ := (readable_iff hd).mp h
  rw [outcome_ensure_ok hrun hlog]
  by_cases hmatch : run = e.generateCmd ∧ logRun = e.generateLogger
  · rw [if_pos hmatch]
    refine ⟨fs, rfl, ⟨d, hd, ?_⟩, fun _ _ => rfl, rfl⟩
    rw [readRun, hd, Option.bind_some, readFile_eq_ok, hmatch.1] at hrun
    rw [readLogRun, hd, Option.bind_some, readFile_eq_ok, hmatch.2] at hlog
    exact ⟨hrun.1, hlog.1⟩
  · rw [if_neg hmatch]
    refine ⟨_, rfl, ⟨e.files, ?_, rfl, rfl⟩, ?_, rfl⟩
    · rw [Assoc.Map.get_set, if_pos rfl]
    · intro name hname
      rw [Assoc.Map.get_set, if_neg hname]

theorem name_of_entryOf {services : List Entry} {name : String}
    (h : entryOf services name = some e) : e ∈ services ∧ e.name = name := by
  rw [entryOf] at h
  have hname := List.find?_some h
  exact ⟨List.mem_reverse.mp (List.mem_of_find?_eq_some h), of_decide_eq_true hname⟩

/-- The services that stay are repaired one after the other. -/
theorem outcome_ensureServices {services : List Entry} {names : List String}
    (hnodup : names.Nodup) (hentry : ∀ name ∈ names, ∃ e, entryOf services name = some e)
    (hreadable : ∀ name ∈ names, ∃ d, fs.services.get name = some d ∧ Readable d) :
    ∃ fs', outcome (ensureServices services names) fs = (.ok (), fs') ∧
      Ensured services names fs fs' := by
  induction names generalizing fs with
  | nil =>
      refine ⟨fs, rfl, ?_, fun _ _ => rfl, rfl⟩
      intro name hname
      cases hname
  | cons name rest ih =>
      rw [List.nodup_cons] at hnodup
      rw [List.forall_mem_cons] at hentry hreadable
      obtain ⟨⟨e, he⟩, hentry⟩ := hentry
      obtain ⟨⟨d, hd, hdir⟩, hreadable⟩ := hreadable
      obtain ⟨-, rfl⟩ := name_of_entryOf he
      obtain ⟨fs₁, hensure, hscripts, hothers, hsupervised⟩ := outcome_ensure hd hdir
      have hrest : ∀ name ∈ rest, ∃ d, fs₁.services.get name = some d ∧ Readable d := by
        intro name hname
        have hne : name ≠ e.name := by
          rintro rfl
          exact hnodup.1 hname
        rw [hothers name hne]
        exact hreadable name hname
      obtain ⟨fs', hfs', hensured⟩ := ih hnodup.2 hentry hrest
      refine ⟨fs', ?_, ?_, ?_, hensured.supervised.trans hsupervised⟩
      · rw [ensureServices, he]
        exact (outcome_bind_ok hensure).trans hfs'
      · intro name hname e' he'
        rcases List.mem_cons.mp hname with rfl | hname
        · rw [he] at he'
          cases he'
          rw [hensured.others e.name hnodup.1]
          exact hscripts
        · exact hensured.scripts name hname e' he'
      · intro name hname
        rw [List.mem_cons, not_or] at hname
        rw [hensured.others name hname.2, hothers name hname.1]

/-- A service whose scripts cannot be read ends the builder. -/
theorem outcome_ensureServices_error {services : List Entry} {names : List String}
    (hnodup : names.Nodup) (hentry : ∀ name ∈ names, ∃ e, entryOf services name = some e)
    (hpresent : ∀ name ∈ names, ∃ d, fs.services.get name = some d)
    (h : ∃ name ∈ names, ∃ d, fs.services.get name = some d ∧ ¬ Readable d) :
    ∃ msg fs', outcome (ensureServices services names) fs = (.error msg, fs') := by
  induction names generalizing fs with
  | nil =>
      obtain ⟨name, hname, -⟩ := h
      cases hname
  | cons name rest ih =>
      rw [List.nodup_cons] at hnodup
      rw [List.forall_mem_cons] at hentry hpresent
      obtain ⟨⟨e, he⟩, hentry⟩ := hentry
      obtain ⟨⟨d, hd⟩, hpresent⟩ := hpresent
      obtain ⟨-, rfl⟩ := name_of_entryOf he
      rw [ensureServices, he]
      by_cases hdir : Readable d
      · obtain ⟨fs₁, hensure, -, hothers, -⟩ := outcome_ensure hd hdir
        have hsame : ∀ name ∈ rest, fs₁.services.get name = fs.services.get name := by
          intro name hname
          refine hothers name ?_
          rintro rfl
          exact hnodup.1 hname
        have hrest : ∃ msg fs', outcome (ensureServices services rest) fs₁ =
            (.error msg, fs') := by
          refine ih hnodup.2 hentry ?_ ?_
          · intro name hname
            rw [hsame name hname]
            exact hpresent name hname
          · obtain ⟨name, hname, d', hd', hnot⟩ := h
            rcases List.mem_cons.mp hname with rfl | hname
            · rw [hd] at hd'
              cases hd'
              exact absurd hdir hnot
            · refine ⟨name, hname, d', ?_, hnot⟩
              rw [hsame name hname, hd']
        obtain ⟨msg, fs', herror⟩ := hrest
        exact ⟨msg, fs', (outcome_bind_ok hensure).trans herror⟩
      · rw [readable_iff hd] at hdir
        obtain ⟨msg, hmsg⟩ := outcome_ensure_error hdir
        exact ⟨msg, fs, outcome_bind_error hmsg⟩

/-- The directory is removed if one of the first four checks says that `supervise` has
stopped. -/
theorem checkSvok_lt (svok : ℕ → ℤ) (count : ℕ) (h : count < 5) :
    (checkSvok svok count).1 < 5 ↔ ∃ k, count ≤ k ∧ k < 4 ∧ getStatus (svok k) = 100 := by
  fun_induction checkSvok svok count with
  | case1 count rc hagain ih =>
      rw [ih hagain.2]
      constructor
      · rintro ⟨k, hle, hk⟩
        exact ⟨k, by omega, hk⟩
      · rintro ⟨k, hle, hlt, hk⟩
        refine ⟨k, ?_, hlt, hk⟩
        rcases Nat.eq_or_lt_of_le hle with rfl | hlt
        · exact absurd hk hagain.1
        · exact hlt
  | case2 count rc hagain =>
      dsimp only
      constructor
      · intro hlt
        refine ⟨count, Nat.le_refl _, by omega, ?_⟩
        by_contra hne
        exact hagain ⟨hne, hlt⟩
      · rintro ⟨k, hle, hlt, -⟩
        omega

/-- One of the first four checks says that `supervise` has stopped. -/
def StopsInFour (svok : String → ℕ → ℤ) (name : String) : Prop :=
  ∃ k < 4, getStatus (svok name k) = 100

/-- Some directories are removed, and nothing else changes. -/
structure Removed (svok : String → ℕ → ℤ) (names : List String) (fs fs' : Files) : Prop where
  removed : ∀ name ∈ names, StopsInFour svok name → fs'.services.get name = none
  others : ∀ name, name ∉ names ∨ ¬ StopsInFour svok name →
    fs'.services.get name = fs.services.get name
  supervised : fs'.supervised = fs.supervised

theorem outcome_removeDirectories (svok : String → ℕ → ℤ) (names : List String) (fs : Files) :
    ∃ fs', outcome (removeDirectories svok names) fs = (.ok (), fs') ∧
      Removed svok names fs fs' := by
  induction names generalizing fs with
  | nil => exact ⟨fs, rfl, fun name hname => (nomatch hname), fun _ _ => rfl, rfl⟩
  | cons name rest ih =>
      have hstops : (checkSvok (svok name) 0).1 < 5 ↔ StopsInFour svok name := by
        rw [checkSvok_lt _ _ (by decide), StopsInFour]
        simp
      rw [removeDirectories]
      by_cases hlt : (checkSvok (svok name) 0).1 < 5
      · obtain ⟨fs', hfs', h⟩ := ih { fs with services := fs.services.erase name }
        rw [if_pos hlt, outcome_bind_ok (outcome_modify _ fs)]
        refine ⟨fs', hfs', ?_, ?_, h.supervised⟩
        · intro name' hname hstop
          by_cases hrest : name' ∈ rest
          · exact h.removed name' hrest hstop
          · obtain rfl := (List.mem_cons.mp hname).resolve_right hrest
            rw [h.others name' (.inl hrest), Assoc.Map.get_erase, if_pos rfl]
        · intro name' hname
          have hne : name' ≠ name := by
            rintro rfl
            rcases hname with hname | hname
            · exact hname List.mem_cons_self
            · exact hname (hstops.mp hlt)
          have hrest : name' ∉ rest ∨ ¬ StopsInFour svok name' :=
            hname.imp_left fun hnot hmem => hnot (List.mem_cons_of_mem _ hmem)
          rw [h.others name' hrest, Assoc.Map.get_erase, if_neg hne]
      · obtain ⟨fs', hfs', h⟩ := ih fs
        rw [if_neg hlt]
        refine ⟨fs', hfs', ?_, ?_, h.supervised⟩
        · intro name' hname hstop
          rcases List.mem_cons.mp hname with rfl | hrest
          · exact absurd (hstops.mpr hstop) hlt
          · exact h.removed name' hrest hstop
        · intro name' hname
          refine h.others name' (hname.imp_left fun hnot hmem => ?_)
          exact hnot (List.mem_cons_of_mem _ hmem)

/-- The missing services are created, and all services are supervised. -/
structure Added (current : List String) (services : List Entry) (fs fs' : Files) : Prop where
  created : ∀ e ∈ services, e.name ∉ current → fs'.services.get e.name = some e.files
  others : ∀ name, name ∈ current ∨ name ∉ services.map Entry.name →
    fs'.services.get name = fs.services.get name
  supervised : ∀ name, name ∈ fs'.supervised ↔
    name ∈ fs.supervised ∨ name ∈ services.map Entry.name

theorem outcome_supervise (name : String) (fs : Files) :
    ∃ fs', outcome (supervise name) fs = (.ok (), fs') ∧ fs'.services = fs.services ∧
      ∀ n, n ∈ fs'.supervised ↔ n ∈ fs.supervised ∨ n = name := by
  rw [supervise, outcome_modify]
  by_cases hmem : name ∈ fs.supervised
  · rw [if_pos hmem]
    refine ⟨fs, rfl, rfl, fun n => (or_iff_left_of_imp ?_).symm⟩
    rintro rfl
    exact hmem
  · rw [if_neg hmem]
    refine ⟨_, rfl, rfl, fun n => ?_⟩
    rw [List.mem_cons, or_comm]

theorem outcome_createMissing (current : List String) (e : Entry) (fs : Files) :
    ∃ fs', outcome (createMissing current e) fs = (.ok (), fs') ∧
      fs'.supervised = fs.supervised ∧
      (e.name ∉ current → fs'.services.get e.name = some e.files) ∧
      ∀ name, name ∈ current ∨ name ≠ e.name →
        fs'.services.get name = fs.services.get name := by
  rw [createMissing]
  by_cases hmem : e.name ∈ current
  · rw [if_neg (not_not.mpr hmem)]
    exact ⟨fs, rfl, rfl, fun hnot => absurd hmem hnot, fun _ _ => rfl⟩
  · rw [if_pos hmem, outcome_create]
    refine ⟨_, rfl, rfl, fun _ => ?_, fun name hname => ?_⟩
    · rw [Assoc.Map.get_set, if_pos rfl]
    · have hne : name ≠ e.name := by
        rintro rfl
        exact hname.elim hmem fun hne => hne rfl
      rw [Assoc.Map.get_set, if_neg hne]

theorem outcome_addServices (current : List String) {services : List Entry}
    (hnodup : (services.map Entry.name).Nodup) (fs : Files) :
    ∃ fs', outcome (addServices current services) fs = (.ok (), fs') ∧
      Added current services fs fs' := by
  induction services generalizing fs with
  | nil => exact ⟨fs, rfl, fun e he => (nomatch he), fun _ _ => rfl, by simp⟩
  | cons e rest ih =>
      rw [List.map_cons, List.nodup_cons] at hnodup
      obtain ⟨fs₁, hfs₁, hsupervised₁, hcreated₁, hothers₁⟩ :=
        outcome_createMissing current e fs
      obtain ⟨fs₂, hfs₂, hservices₂, hsupervised₂⟩ := outcome_supervise e.name fs₁
      obtain ⟨fs', hfs', h⟩ := ih hnodup.2 fs₂
      refine ⟨fs', ?_, ?_, ?_, ?_⟩
      · rw [addServices, outcome_bind_ok hfs₁, outcome_bind_ok hfs₂, hfs']
      · intro e' he' hcurrent
        rcases List.mem_cons.mp he' with rfl | he'
        · rw [h.others _ (.inr hnodup.1), hservices₂]
          exact hcreated₁ hcurrent
        · exact h.created e' he' hcurrent
      · intro name hname
        rw [List.map_cons, List.mem_cons, not_or] at hname
        rw [h.others name (hname.imp_right fun hboth => hboth.2), hservices₂,
          hothers₁ name (hname.imp_right fun hboth => hboth.1)]
      · intro name
        rw [h.supervised, hsupervised₂, hsupervised₁, List.map_cons, List.mem_cons, or_assoc]

end Parts

section Converge

variable {keys : List String → List String} {svok : String → ℕ → ℤ} {services : List Entry}
  {fs : Files}

/-- After a run of the builder that returned, the directories are those of the configured
services, with their scripts, and every one of them is supervised. -/
structure Converged (services : List Entry) (r : Except String Unit × Files) : Prop where
  returns : r.1 = .ok ()
  names : ∀ name, (r.2.services.get name).isSome ↔ name ∈ services.map Entry.name
  scripts : ∀ e ∈ services, ∃ d, r.2.services.get e.name = some d ∧ Scripts e d
  supervised : ∀ e ∈ services, e.name ∈ r.2.supervised

theorem mem_curServices {name : String} :
    name ∈ fs.curServices ↔ (fs.services.get name).isSome := by
  rw [Files.curServices, Assoc.Map.get, Assoc.isSome_lookup, decide_eq_true_iff]

theorem nodup_curServices (fs : Files) : fs.curServices.Nodup :=
  fs.services.sorted.nodup

theorem entryOf_eq_some (hnodup : (services.map Entry.name).Nodup) {e : Entry}
    (he : e ∈ services) : entryOf services e.name = some e := by
  cases hfind : entryOf services e.name with
  | none =>
      have hall := List.find?_eq_none.mp hfind e (List.mem_reverse.mpr he)
      exact absurd (decide_eq_true rfl) hall
  | some e' =>
      obtain ⟨he', hname⟩ := name_of_entryOf hfind
      rw [List.inj_on_of_nodup_map hnodup he' he hname]

/-- The services that are repaired. -/
def kept (keys : List String → List String) (services : List Entry) (fs : Files) :
    List String :=
  keys (fs.curServices.filter fun name => name ∈ services.map Entry.name)

/-- The services that are removed. -/
def dropped (keys : List String → List String) (services : List Entry) (fs : Files) :
    List String :=
  keys (fs.curServices.filter fun name => name ∉ services.map Entry.name)

theorem mem_kept (hkeys : ∀ l, (keys l).Perm l) {name : String} :
    name ∈ kept keys services fs ↔
      (fs.services.get name).isSome ∧ name ∈ services.map Entry.name := by
  rw [kept, (hkeys _).mem_iff, List.mem_filter, mem_curServices, decide_eq_true_iff]

theorem mem_dropped (hkeys : ∀ l, (keys l).Perm l) {name : String} :
    name ∈ dropped keys services fs ↔
      (fs.services.get name).isSome ∧ name ∉ services.map Entry.name := by
  rw [dropped, (hkeys _).mem_iff, List.mem_filter, mem_curServices, decide_eq_true_iff]

theorem nodup_kept (hkeys : ∀ l, (keys l).Perm l) : (kept keys services fs).Nodup :=
  (hkeys _).nodup_iff.mpr ((nodup_curServices fs).filter _)

theorem entry_of_kept (hkeys : ∀ l, (keys l).Perm l)
    (hnodup : (services.map Entry.name).Nodup) {name : String}
    (hname : name ∈ kept keys services fs) : ∃ e, entryOf services name = some e := by
  obtain ⟨e, he, rfl⟩ := List.mem_map.mp ((mem_kept hkeys).mp hname).2
  exact ⟨e, entryOf_eq_some hnodup he⟩

/-- The scripts of the services that stay can be read. -/
def AllReadable (services : List Entry) (fs : Files) : Prop :=
  ∀ e ∈ services, ∀ d, fs.services.get e.name = some d → Readable d

/-- What the builder leaves if it returns. -/
structure Generated (svok : String → ℕ → ℤ) (services : List Entry) (fs fs' : Files) :
    Prop where
  scripts : ∀ e ∈ services, ∃ d, fs'.services.get e.name = some d ∧ Scripts e d
  others : ∀ name ∉ services.map Entry.name, (fs'.services.get name).isSome ↔
    (fs.services.get name).isSome ∧ ¬ StopsInFour svok name
  supervised : ∀ e ∈ services, e.name ∈ fs'.supervised

/-- The parts of the builder, one after the other. -/
theorem outcome_generate_eq (keys : List String → List String) (svok : String → ℕ → ℤ)
    (services : List Entry) (fs : Files) : outcome (generate keys svok services) fs =
      outcome (do
        ensureServices services (kept keys services fs)
        removeServices svok (dropped keys services fs)
        let fs' ← get
        addServices fs'.curServices services) fs := by
  rw [generate, outcome_bind_ok (outcome_get fs)]
  rfl

theorem outcome_removeServices (svok : String → ℕ → ℤ) (names : List String) (fs : Files) :
    ∃ fs', outcome (removeServices svok names) fs = (.ok (), fs') ∧
      (∀ name ∈ names, StopsInFour svok name → fs'.services.get name = none) ∧
      ∀ name, name ∉ names ∨ ¬ StopsInFour svok name →
        fs'.services.get name = fs.services.get name := by
  have hunlink : outcome (unlinkServices names) fs = (.ok (),
      { fs with supervised := fs.supervised.filter fun name => name ∉ names }) :=
    outcome_modify _ fs
  obtain ⟨fs', hfs', h⟩ := outcome_removeDirectories svok names
    { fs with supervised := fs.supervised.filter fun name => name ∉ names }
  refine ⟨fs', ?_, h.removed, h.others⟩
  rw [removeServices, outcome_bind_ok hunlink, hfs']

variable (svok) in
theorem outcome_generate (hkeys : ∀ l, (keys l).Perm l)
    (hnodup : (services.map Entry.name).Nodup) (hreadable : AllReadable services fs) :
    ∃ fs', outcome (generate keys svok services) fs = (.ok (), fs') ∧
      Generated svok services fs fs' := by
  have hkept : ∀ name ∈ kept keys services fs,
      ∃ d, fs.services.get name = some d ∧ Readable d := by
    intro name hname
    obtain ⟨hsome, hmem⟩ := (mem_kept hkeys).mp hname
    obtain ⟨d, hd⟩ := Option.isSome_iff_exists.mp hsome
    obtain ⟨e, he, rfl⟩ := List.mem_map.mp hmem
    exact ⟨d, hd, hreadable e he d hd⟩
  obtain ⟨fs₁, hfs₁, hensured⟩ := outcome_ensureServices (nodup_kept hkeys)
    (fun name hname => entry_of_kept hkeys hnodup hname) hkept
  obtain ⟨fs₂, hfs₂, hremoved, hothers⟩ :=
    outcome_removeServices svok (dropped keys services fs) fs₁
  obtain ⟨fs', hfs', hadded⟩ := outcome_addServices fs₂.curServices hnodup fs₂
  -- a configured service is not removed, so it is as it was after the repair
  have hconfigured : ∀ e ∈ services, fs₂.services.get e.name = fs₁.services.get e.name := by
    intro e he
    refine hothers e.name (.inl fun hmem => ?_)
    exact ((mem_dropped hkeys).mp hmem).2 (List.mem_map_of_mem he)
  refine ⟨fs', ?_, ?_, ?_, ?_⟩
  · rw [outcome_generate_eq, outcome_bind_ok hfs₁, outcome_bind_ok hfs₂,
      outcome_bind_ok (outcome_get fs₂), hfs']
  · intro e he
    by_cases hcurrent : e.name ∈ fs₂.curServices
    · have hsome : (fs.services.get e.name).isSome := by
        rw [mem_curServices, hconfigured e he] at hcurrent
        by_contra hnone
        rw [hensured.others e.name fun hmem => hnone ((mem_kept hkeys).mp hmem).1] at hcurrent
        exact hnone hcurrent
      have hmem : e.name ∈ kept keys services fs :=
        (mem_kept hkeys).mpr ⟨hsome, List.mem_map_of_mem he⟩
      rw [hadded.others e.name (.inl hcurrent), hconfigured e he]
      exact hensured.scripts e.name hmem e (entryOf_eq_some hnodup he)
    · exact ⟨e.files, hadded.created e he hcurrent, rfl, rfl⟩
  · intro name hname
    have hkept' : name ∉ kept keys services fs := fun hmem => hname ((mem_kept hkeys).mp hmem).2
    rw [hadded.others name (.inr hname)]
    by_cases hstops : StopsInFour svok name
    · simp only [hstops, not_true_eq_false, and_false, iff_false]
      by_cases hsome : (fs.services.get name).isSome
      · rw [hremoved name ((mem_dropped hkeys).mpr ⟨hsome, hname⟩) hstops]
        exact Bool.false_ne_true
      · have hnot : name ∉ dropped keys services fs :=
          fun hmem => hsome ((mem_dropped hkeys).mp hmem).1
        rw [hothers name (.inl hnot), hensured.others name hkept']
        exact hsome
    · rw [hothers name (.inr hstops), hensured.others name hkept']
      simp [hstops]
  · intro e he
    exact (hadded.supervised e.name).mpr (.inr (List.mem_map_of_mem he))

variable (svok) in
theorem outcome_generate_error (hkeys : ∀ l, (keys l).Perm l)
    (hnodup : (services.map Entry.name).Nodup) (hreadable : ¬ AllReadable services fs) :
    ∃ msg fs', outcome (generate keys svok services) fs = (.error msg, fs') := by
  simp only [AllReadable, not_forall] at hreadable
  obtain ⟨e, he, d, hd, hnot⟩ := hreadable
  have hmem : e.name ∈ kept keys services fs := by
    rw [mem_kept hkeys, hd]
    exact ⟨rfl, List.mem_map_of_mem he⟩
  obtain ⟨msg, fs', herror⟩ := outcome_ensureServices_error (nodup_kept hkeys)
    (fun name hname => entry_of_kept hkeys hnodup hname)
    (fun name hname => Option.isSome_iff_exists.mp ((mem_kept hkeys).mp hname).1)
    ⟨e.name, hmem, d, hd, hnot⟩
  refine ⟨msg, fs', ?_⟩
  rw [outcome_generate_eq]
  exact outcome_bind_error herror

/-- The builder converges if and only if every service to be removed is seen to have stopped at
one of the first four checks, and the scripts of the services that stay can be read. -/
theorem converged_iff (hkeys : ∀ l, (keys l).Perm l)
    (hnodup : (services.map Entry.name).Nodup) :
    Converged services (outcome (generate keys svok services) fs) ↔
      (∀ name, (fs.services.get name).isSome → name ∉ services.map Entry.name →
        StopsInFour svok name) ∧ AllReadable services fs := by
  by_cases hreadable : AllReadable services fs
  · obtain ⟨fs', hfs', h⟩ := outcome_generate svok hkeys hnodup hreadable
    rw [hfs', and_iff_left hreadable]
    constructor
    · intro hconverged name hsome hname
      by_contra hstops
      exact hname ((hconverged.names name).mp ((h.others name hname).mpr ⟨hsome, hstops⟩))
    · intro hstops
      refine ⟨rfl, fun name => ⟨?_, ?_⟩, h.scripts, h.supervised⟩
      · intro hsome
        by_contra hname
        obtain ⟨hsome, hnot⟩ := (h.others name hname).mp hsome
        exact hnot (hstops name hsome hname)
      · intro hname
        obtain ⟨e, he, rfl⟩ := List.mem_map.mp hname
        obtain ⟨d, hd, -⟩ := h.scripts e he
        rw [hd]
        rfl
  · obtain ⟨msg, fs', hfs'⟩ := outcome_generate_error svok hkeys hnodup hreadable
    rw [hfs']
    constructor
    · intro hconverged
      cases hconverged.returns
    · exact fun hboth => absurd hboth.2 hreadable

/-- The answers of `svok` for a service that has stopped at check number `n`. -/
def stopsAt (n : ℕ) (_ : String) (k : ℕ) : ℤ :=
  if k < n then 0 else 25600

/-- The service that is configured. -/
def worker : Entry :=
  ⟨"worker", "/usr/bin/worker", "gearbox", ""⟩

/-- The directories with a service that is not configured any more. -/
def oldFiles : Files where
  services := Assoc.Map.empty.set "old" worker.files
  supervised := ["old"]

theorem converged_worker :
    Converged [worker] (outcome (generate id (stopsAt 3) [worker]) oldFiles) := by
  refine (converged_iff (fun l => .refl l) (by decide)).mpr ⟨?_, ?_⟩
  · exact fun _ _ _ => ⟨3, by decide, rfl⟩
  · intro e he d hd
    rw [List.mem_singleton.mp he] at hd
    cases hd

/-- A service that has stopped at the fifth check is not removed. -/
theorem not_converged :
    (∀ name, ∃ k < 5, getStatus (stopsAt 4 name k) = 100) ∧
    ¬ Converged [worker] (outcome (generate id (stopsAt 4) [worker]) oldFiles) := by
  refine ⟨fun _ => ⟨4, by decide, rfl⟩, fun hconverged => ?_⟩
  have hkeys : ∀ l : List String, (id l).Perm l := fun l => .refl l
  have hreadable : AllReadable [worker] oldFiles := by
    intro e he d hd
    rw [List.mem_singleton.mp he] at hd
    cases hd
  obtain ⟨fs', hfs', h⟩ := outcome_generate (stopsAt 4) hkeys (by decide) hreadable
  have hnot : ¬ StopsInFour (stopsAt 4) "old" := by
    rintro ⟨k, hk, hstatus⟩
    rw [stopsAt, if_pos hk] at hstatus
    cases hstatus
  have hold : (fs'.services.get "old").isSome :=
    (h.others "old" (by decide)).mpr ⟨rfl, hnot⟩
  rw [hfs'] at hconverged
  have hmem := (hconverged.names "old").mp hold
  revert hmem
  decide

end Converge

end Service

end Gearbox
