import Gearbox.Config.File
import Gearbox.Json.Agreement

/-!
# The merge of `config.d`

What `ConfigFile` makes of a top-level object and the files of `config.d`. `newValue` is
the value that a file leaves at its section, and the files do not interfere when their base
names are different. `MergeLaw` is what the merge is for: the top level takes precedence, a
file fills in what is missing, and a file that cannot be parsed changes nothing.

The law holds exactly if every file that cannot be parsed is about a section of the top
level. For any other such file the section is created before the file is parsed, and it
stays with what was read. A copy of a long array does not end.
-/

namespace Gearbox

namespace Config

open Json Refinement

variable {D : Type} {env : Env D}

section Members

/-- The members of a section, and those of a file that the section does not have. -/
def fill (so : List (String × Json D)) : List (String × Json D) → List (String × Json D)
  | [] => so
  | (k, v) :: rest =>
    if (so.lookup k).isSome then fill so rest else fill (Assoc.insertKey k v so) rest

/-- Every member that has to be copied can be copied. -/
def Copied (so fo : List (String × Json D)) : Prop :=
  ∀ k v, fo.lookup k = some v → so.lookup k = none → v.Bounded (2 ^ 32 - 1)

theorem lookup_fill (so fo : List (String × Json D)) (k : String) :
    (fill so fo).lookup k = (so.lookup k).or (fo.lookup k) := by
  induction fo generalizing so with
  | nil =>
      cases h : so.lookup k with
      | none => simp [fill, h]
      | some v => simp [fill, h]
  | cons m rest ih =>
      obtain ⟨k₀, v₀⟩ := m
      rw [fill]
      by_cases hk₀ : (so.lookup k₀).isSome
      · rw [if_pos hk₀, ih, Assoc.lookup_cons_eq]
        by_cases hk : k = k₀
        · subst hk
          obtain ⟨v, hv⟩ := Option.isSome_iff_exists.mp hk₀
          rw [hv]
          rfl
        · rw [if_neg hk]
      · have hnone : so.lookup k₀ = none := Option.not_isSome_iff_eq_none.mp hk₀
        rw [if_neg hk₀, ih, Assoc.lookup_insertKey hnone, Assoc.lookup_cons_eq]
        by_cases hk : k = k₀
        · subst hk
          rw [if_pos rfl, if_pos rfl, hnone]
          rfl
        · rw [if_neg hk, if_neg hk]

theorem sorted_fill {so : List (String × Json D)} (h : Assoc.Sorted so)
    (fo : List (String × Json D)) : Assoc.Sorted (fill so fo) := by
  induction fo generalizing so with
  | nil =>
      exact h
  | cons m rest ih =>
      obtain ⟨k₀, v₀⟩ := m
      rw [fill]
      split
      · exact ih h
      · rename_i hk₀
        exact ih (Assoc.sorted_insertKey h (Option.not_isSome_iff_eq_none.mp hk₀))

theorem copied_cons_of_isSome {so rest : List (String × Json D)} {k : String} {v : Json D}
    (hk : (so.lookup k).isSome) : Copied so ((k, v) :: rest) ↔ Copied so rest := by
  constructor
  · intro h k' v' hv' hnone
    have hne : k' ≠ k := by
      rintro rfl
      rw [hnone] at hk
      cases hk
    apply h k' v' _ hnone
    rw [Assoc.lookup_cons_eq, if_neg hne, hv']
  · intro h k' v' hv' hnone
    have hne : k' ≠ k := by
      rintro rfl
      rw [hnone] at hk
      cases hk
    rw [Assoc.lookup_cons_eq, if_neg hne] at hv'
    exact h k' v' hv' hnone

theorem copied_cons_of_none {so rest : List (String × Json D)} {k : String} {v : Json D}
    (hk : so.lookup k = none) : Copied so ((k, v) :: rest) ↔
      v.Bounded (2 ^ 32 - 1) ∧ Copied (Assoc.insertKey k v so) rest := by
  constructor
  · intro h
    refine ⟨h k v (by rw [Assoc.lookup_cons_eq, if_pos rfl]) hk, ?_⟩
    intro k' v' hv' hnone
    rw [Assoc.lookup_insertKey hk] at hnone
    by_cases hkk' : k' = k
    · rw [if_pos hkk'] at hnone
      cases hnone
    · rw [if_neg hkk'] at hnone
      apply h k' v' _ hnone
      rw [Assoc.lookup_cons_eq, if_neg hkk', hv']
  · rintro ⟨hbounded, h⟩ k' v' hv' hnone
    rw [Assoc.lookup_cons_eq] at hv'
    by_cases hkk' : k' = k
    · rw [if_pos hkk'] at hv'
      cases hv'
      exact hbounded
    · rw [if_neg hkk'] at hv'
      apply h k' v' hv'
      rw [Assoc.lookup_insertKey hk, if_neg hkk', hnone]

/-- A member that the section has is skipped. -/
theorem outcome_mergeMembers_skip {section' : Json D} {k : String}
    (hk : section'.hasKey k) (v : Json D) (rest : List (String × Json D)) :
    outcome (mergeMembers ((k, v) :: rest)) section' =
      outcome (mergeMembers rest) section' := by
  rw [mergeMembers, outcome_bind_ok (outcome_get section'), if_pos hk]

/-- A member that the section does not have is copied. -/
theorem outcome_mergeMembers_copy {section' added : Json D} {k : String}
    (hk : section'.hasKey k = false) (hadd : addKey k section' = .ok added) {v : Json D}
    (hv : v.Bounded (2 ^ 32 - 1)) (rest : List (String × Json D)) :
    outcome (mergeMembers ((k, v) :: rest)) section' =
      outcome (mergeMembers rest) (added.modifyStep (.key k) fun _ => v) := by
  rw [mergeMembers, outcome_bind_ok (outcome_get section'), hk]
  simp only [Bool.false_eq_true, if_false]
  rw [outcome_bind_ok (outcome_get section'), hadd, copy_of_bounded hv]
  rfl

theorem outcome_mergeMembers_diverges {section' added : Json D} {k : String}
    (hk : section'.hasKey k = false) (hadd : addKey k section' = .ok added) {v : Json D}
    (hv : ¬ v.Bounded (2 ^ 32 - 1)) (rest : List (String × Json D)) :
    outcome (mergeMembers ((k, v) :: rest)) section' = (.error .diverges, added) := by
  rw [mergeMembers, outcome_bind_ok (outcome_get section'), hk]
  simp only [Bool.false_eq_true, if_false]
  rw [outcome_bind_ok (outcome_get section'), hadd, copy_of_not_bounded hv]
  rfl

theorem addKey_object {o : List (String × Json D)} {k : String} (hk : o.lookup k = none) :
    addKey k (.object o) = .ok (.object (Assoc.insertKey k .undef o)) := by
  simp [addKey, hk]

theorem hasKey_object (o : List (String × Json D)) (k : String) :
    (Json.object o).hasKey k = (o.lookup k).isSome := rfl

/-- The loop at a section that is an object. -/
theorem mergeMembers_object (so fo : List (String × Json D)) :
    Copied so fo ∧ outcome (mergeMembers fo) (.object so) = (.ok (), .object (fill so fo)) ∨
      ¬ Copied so fo ∧
        ∃ j, outcome (mergeMembers fo) (.object so) = (.error .diverges, j) := by
  induction fo generalizing so with
  | nil =>
      left
      refine ⟨?_, rfl⟩
      intro k v hv
      cases hv
  | cons m rest ih =>
      obtain ⟨k, v⟩ := m
      cases hk : so.lookup k with
      | some w =>
          have hsome : (so.lookup k).isSome := by rw [hk]; rfl
          have hkey : (Json.object so).hasKey k := hsome
          rw [outcome_mergeMembers_skip hkey, copied_cons_of_isSome hsome, fill,
            if_pos hsome]
          exact ih so
      | none =>
          have hnone : (Json.object so).hasKey k = false := by rw [hasKey_object, hk]; rfl
          rw [copied_cons_of_none hk]
          by_cases hv : v.Bounded (2 ^ 32 - 1)
          · rw [outcome_mergeMembers_copy hnone (addKey_object hk) hv, modifyStep,
              Assoc.modifyKey_insertKey hk, fill, hk]
            simp only [hv, true_and, Option.isSome_none, Bool.false_eq_true, if_false]
            exact ih (Assoc.insertKey k v so)
          · right
            refine ⟨fun h => hv h.1, ?_⟩
            exact ⟨_, outcome_mergeMembers_diverges hnone (addKey_object hk) hv rest⟩

/-- The value of a section after the members of a file are merged into it. -/
def sectionValue (top : Json D) (fo : List (String × Json D)) : Json D :=
  match top with
  | .object so => .object (fill so fo)
  | .undef => if fo.isEmpty then .undef else .object (fill [] fo)
  | j => j

/-- The merge of the members into a section ends. -/
def Copyable (top : Json D) (fo : List (String × Json D)) : Prop :=
  match top with
  | .object so => Copied so fo
  | .undef => Copied [] fo
  | _ => True

/-- The outcome of the merge of the members into a section. -/
structure Merges (fo : List (String × Json D)) (top : Json D) : Prop where
  raises : ∀ e, (outcome (mergeMembers fo) top).1 = .error e → e.isException
  value : (outcome (mergeMembers fo) top).2 = sectionValue top fo

/-- The members of a file, and a section that is no container. -/
theorem merges_of_addKey_error {top : Json D} (hmember : ∀ k, top.member k = none)
    (hadd : ∀ k, ∃ m, addKey k top = .error (.json m))
    (hvalue : ∀ fo, sectionValue top fo = top) (fo : List (String × Json D)) :
    Merges fo top := by
  cases fo with
  | nil => exact ⟨nofun, (hvalue []).symm⟩
  | cons m rest =>
      obtain ⟨k, v⟩ := m
      obtain ⟨message, hmessage⟩ := hadd k
      have hkey : top.hasKey k = false := by rw [hasKey, hmember k]; rfl
      have houtcome : outcome (mergeMembers ((k, v) :: rest)) top =
          (.error (.json message), top) := by
        rw [mergeMembers, outcome_bind_ok (outcome_get top), hkey]
        simp only [Bool.false_eq_true, if_false]
        rw [outcome_bind_ok (outcome_get top), hmessage]
        rfl
      constructor
      · intro e he
        rw [houtcome] at he
        cases he
        rfl
      · rw [houtcome, hvalue]

/-- A section that is `null` becomes an object with the first member. -/
theorem mergeMembers_undef (m : String × Json D) (rest : List (String × Json D)) :
    outcome (mergeMembers (m :: rest)) .undef =
      outcome (mergeMembers (m :: rest)) (.object []) := by
  obtain ⟨k, v⟩ := m
  by_cases hv : v.Bounded (2 ^ 32 - 1)
  · rw [outcome_mergeMembers_copy rfl rfl hv, outcome_mergeMembers_copy rfl rfl hv]
    rfl
  · rw [outcome_mergeMembers_diverges rfl rfl hv, outcome_mergeMembers_diverges rfl rfl hv]
    rfl

theorem merges_of_outcome {fo : List (String × Json D)} {top : Json D}
    (h : outcome (mergeMembers fo) top = (.ok (), sectionValue top fo)) :
    Merges fo top := by
  constructor
  · intro e he
    rw [h] at he
    cases he
  · rw [h]

/-- The merge of the members of a file into a section ends with the value of the section,
or it does not end. -/
theorem mergeMembers_cases (top : Json D) (fo : List (String × Json D)) :
    Copyable top fo ∧ Merges fo top ∨
      ¬ Copyable top fo ∧ ∃ j, outcome (mergeMembers fo) top = (.error .diverges, j) := by
  cases top with
  | object so =>
      rcases mergeMembers_object so fo with ⟨hcopied, hmerge⟩ | hdiverges
      · exact Or.inl ⟨hcopied, merges_of_outcome hmerge⟩
      · exact Or.inr hdiverges
  | undef =>
      cases fo with
      | nil => exact Or.inl ⟨nofun, merges_of_outcome rfl⟩
      | cons m rest =>
          rw [mergeMembers_undef]
          rcases mergeMembers_object [] (m :: rest) with ⟨hcopied, hmerge⟩ | hdiverges
          · refine Or.inl ⟨hcopied, merges_of_outcome ?_⟩
            rw [mergeMembers_undef, hmerge]
            rfl
          · exact Or.inr hdiverges
  | bool b =>
      exact Or.inl ⟨trivial,
        merges_of_addKey_error (fun _ => rfl) (fun _ => ⟨_, rfl⟩) (fun _ => rfl) fo⟩
  | int n =>
      exact Or.inl ⟨trivial,
        merges_of_addKey_error (fun _ => rfl) (fun _ => ⟨_, rfl⟩) (fun _ => rfl) fo⟩
  | double x =>
      exact Or.inl ⟨trivial,
        merges_of_addKey_error (fun _ => rfl) (fun _ => ⟨_, rfl⟩) (fun _ => rfl) fo⟩
  | string v =>
      exact Or.inl ⟨trivial,
        merges_of_addKey_error (fun _ => rfl) (fun _ => ⟨_, rfl⟩) (fun _ => rfl) fo⟩
  | array a =>
      exact Or.inl ⟨trivial,
        merges_of_addKey_error (fun _ => rfl) (fun _ => ⟨_, rfl⟩) (fun _ => rfl) fo⟩

end Members

section Files

variable (env)

/-- The value that a file leaves at its section. -/
def newValue (dir base : String) (current : Option (Json D)) (file : File) : Json D :=
  match current with
  | none => (parseFile env (dir ++ "/" ++ base ++ ".conf") file).2
  | some top =>
    match file.complete? env with
    | some (.object fo) => sectionValue top fo
    | _ => top

/-- The merge of a file ends. -/
def Ends (current : Option (Json D)) (file : File) : Prop :=
  ∀ top fo, current = some top → file.complete? env = some (.object fo) → Copyable top fo

/-- The members of the configuration after the files. -/
def mergedFiles (dir : String) :
    List (String × File) → List (String × Json D) → List (String × Json D)
  | [], o => o
  | (base, file) :: rest, o =>
    mergedFiles dir rest
      (Assoc.assign base (newValue env dir base (o.lookup base) file) o)

variable {env}

theorem parseFile_of_complete {file : File} {j : Json D} (h : file.complete? env = some j)
    (path : String) : parseFile env path file = (.ok (), j) := by
  cases file with
  | absent => cases h
  | unreadable => cases h
  | text t => exact parseInto_of_complete env h

theorem parseFile_of_none {file : File} (h : file.complete? env = none) (path : String) :
    ∃ e, (parseFile env path file).1 = .error e := by
  cases file with
  | absent => exact ⟨_, rfl⟩
  | unreadable => exact ⟨_, rfl⟩
  | text t => exact parseInto_of_none env h

theorem isException_parseFile {file : File} {path : String} {e : Failure}
    (h : (parseFile env path file).1 = .error e) : e.isException := by
  cases file with
  | absent =>
      cases h
      rfl
  | unreadable =>
      cases h
      rfl
  | text t => exact isException_parseInto env h

/-- An exception in a `try` block. -/
theorem outcome_catching_error {σ : Type} {m : Code σ Failure Unit} {s s' : σ}
    {e : Failure} (h : outcome m s = (.error e, s')) (he : e.isException) :
    outcome (catching m) s = (.ok (), s') := by
  rw [catching, outcome_mk, h]
  simp only [he, if_true]

theorem outcome_catching_ok {σ : Type} {m : Code σ Failure Unit} {s s' : σ}
    (h : outcome m s = (.ok (), s')) : outcome (catching m) s = (.ok (), s') := by
  rw [catching, outcome_mk, h]

theorem outcome_catching {σ : Type} {m : Code σ Failure Unit} {s : σ}
    (h : ∀ e, (outcome m s).1 = .error e → e.isException) :
    outcome (catching m) s = (.ok (), (outcome m s).2) := by
  cases hm : outcome m s with
  | mk r s' =>
      cases r with
      | ok u => exact outcome_catching_ok hm
      | error e =>
          rw [hm] at h
          exact outcome_catching_error hm (h e rfl)

theorem outcome_atKey {o : List (String × Json D)} {k : String} {top : Json D}
    (hk : o.lookup k = some top) (m : Code (Json D) Failure Unit) :
    outcome (atKey k m) (.object o) =
      ((outcome m top).1, .object (Assoc.assign k (outcome m top).2 o)) := by
  have hassign : Assoc.assign k (outcome m top).2 o =
      Assoc.modifyKey k (fun _ => (outcome m top).2) o := by
    rw [Assoc.assign, hk]
    rfl
  rw [atKey, outcome_mk, hassign]
  simp only [member, hk]
  rfl

theorem assign_self {o : List (String × Json D)} {k : String} {v : Json D}
    (h : o.lookup k = some v) : Assoc.assign k v o = o := by
  have hmodify : Assoc.modifyKey k (fun _ => v) o = Assoc.modifyKey k id o := by
    apply Assoc.modifyKey_congr
    intro w hw
    rw [h] at hw
    cases hw
    rfl
  rw [Assoc.assign, h, Option.isSome_some, if_pos rfl, hmodify, Assoc.modifyKey_id]

theorem outcome_newSection {o : List (String × Json D)} {base : String}
    (hbase : o.lookup base = none) (parsed : Except Failure Unit × Json D) :
    outcome (newSection base parsed) (.object o) =
      (parsed.1, .object (Assoc.insertKey base parsed.2 o)) := by
  have hinsert := Assoc.modifyKey_insertKey hbase .undef fun _ => parsed.2
  rw [newSection, outcome_bind_ok (outcome_get _), addKey_object hbase, ← hinsert]
  rfl

/-- A file about a section that does not exist. -/
theorem outcome_mergeFile_none {o : List (String × Json D)} {base : String}
    (hbase : o.lookup base = none) (dir : String) (file : File) :
    outcome (mergeFile env dir base file) (.object o) =
      (.ok (), .object (Assoc.assign base (newValue env dir base none file) o)) := by
  have hkey : (Json.object o).hasKey base = false := by rw [hasKey_object, hbase]; rfl
  have hassign : Assoc.assign base (newValue env dir base none file) o =
      Assoc.insertKey base (parseFile env (dir ++ "/" ++ base ++ ".conf") file).2 o := by
    rw [Assoc.assign, hbase]
    rfl
  have hnew := outcome_newSection hbase
    (parseFile env (dir ++ "/" ++ base ++ ".conf") file)
  have hbranch : outcome (do
      if (← get).hasKey base then
        mergeSection base (parseFile env (dir ++ "/" ++ base ++ ".conf") file)
      else
        newSection base (parseFile env (dir ++ "/" ++ base ++ ".conf") file) :
      Code (Json D) Failure Unit) (.object o) =
      ((parseFile env (dir ++ "/" ++ base ++ ".conf") file).1, .object (Assoc.insertKey base
        (parseFile env (dir ++ "/" ++ base ++ ".conf") file).2 o)) := by
    rw [outcome_bind_ok (outcome_get _), hkey]
    exact hnew
  rw [mergeFile, hassign]
  refine (outcome_catching ?_).trans ?_
  · intro e he
    rw [hbranch] at he
    exact isException_parseFile he
  · rw [hbranch]

/-- A file about a section that exists. -/
theorem outcome_mergeFile_some {o : List (String × Json D)} {base : String} {top : Json D}
    (hbase : o.lookup base = some top) (dir : String) (file : File) :
    outcome (mergeFile env dir base file) (.object o) =
      outcome (catching (mergeSection base
        (parseFile env (dir ++ "/" ++ base ++ ".conf") file))) (.object o) := by
  have hkey : (Json.object o).hasKey base = true := by rw [hasKey_object, hbase]; rfl
  rw [mergeFile, catching, catching, outcome_mk, outcome_mk,
    outcome_bind_ok (outcome_get _), hkey]
  rfl

/-- A file that is no object fails before the section is changed. -/
theorem outcome_mergeSection_of_ne {file : File}
    (h : ∀ fo, file.complete? env ≠ some (.object fo)) (base path : String) (j : Json D) :
    ∃ e, outcome (mergeSection base (parseFile env path file)) j = (.error e, j) ∧
      e.isException := by
  cases hfile : file.complete? env with
  | none =>
      obtain ⟨e, he⟩ := parseFile_of_none hfile path
      refine ⟨e, ?_, isException_parseFile he⟩
      rw [mergeSection, he]
      rfl
  | some i =>
      rw [parseFile_of_complete hfile]
      cases i with
      | object fo => exact absurd hfile (h fo)
      | undef => exact ⟨_, rfl, rfl⟩
      | bool b => exact ⟨_, rfl, rfl⟩
      | int n => exact ⟨_, rfl, rfl⟩
      | double x => exact ⟨_, rfl, rfl⟩
      | string v => exact ⟨_, rfl, rfl⟩
      | array a => exact ⟨_, rfl, rfl⟩

theorem newValue_of_ne {file : File} (h : ∀ fo, file.complete? env ≠ some (.object fo))
    (dir base : String) (top : Json D) : newValue env dir base (some top) file = top := by
  rw [newValue]
  split
  · rename_i fo hfo
    exact absurd hfo (h fo)
  · rfl

theorem ends_some_iff {file : File} {fo : List (String × Json D)}
    (hfile : file.complete? env = some (.object fo)) (top : Json D) :
    Ends env (some top) file ↔ Copyable top fo := by
  constructor
  · intro h
    exact h top fo rfl hfile
  · intro h top' fo' htop hfo
    rw [hfile] at hfo
    cases hfo
    cases htop
    exact h

/-- The merge of a file leaves the new value at its section, or it does not end. -/
theorem mergeFile_cases (o : List (String × Json D)) (dir base : String) (file : File) :
    Ends env (o.lookup base) file ∧ outcome (mergeFile env dir base file) (.object o) =
      (.ok (), .object
        (Assoc.assign base (newValue env dir base (o.lookup base) file) o)) ∨
    ¬ Ends env (o.lookup base) file ∧
      ∃ j, outcome (mergeFile env dir base file) (.object o) = (.error .diverges, j) := by
  cases hbase : o.lookup base with
  | none => exact Or.inl ⟨nofun, outcome_mergeFile_none hbase dir file⟩
  | some top =>
      rw [outcome_mergeFile_some hbase]
      by_cases hobject : ∃ fo, file.complete? env = some (.object fo)
      · obtain ⟨fo, hfile⟩ := hobject
        have hsection : outcome (mergeSection base (.ok (), .object fo)) (.object o) =
            ((outcome (mergeMembers fo) top).1, .object
              (Assoc.assign base (outcome (mergeMembers fo) top).2 o)) :=
          outcome_atKey hbase (mergeMembers fo)
        have hvalue : newValue env dir base (some top) file = sectionValue top fo := by
          simp only [newValue, hfile]
        rw [parseFile_of_complete hfile, hvalue, ends_some_iff hfile]
        rcases mergeMembers_cases top fo with ⟨hcopyable, hmerges⟩ | ⟨hnot, j, hj⟩
        · left
          refine ⟨hcopyable, (outcome_catching ?_).trans ?_⟩
          · intro e he
            rw [hsection] at he
            exact hmerges.raises e he
          · rw [hsection, hmerges.value]
        · right
          rw [hj] at hsection
          exact ⟨hnot, _, by rw [catching, outcome_mk, hsection]; rfl⟩
      · have hne : ∀ fo, file.complete? env ≠ some (.object fo) :=
          fun fo hfo => hobject ⟨fo, hfo⟩
        obtain ⟨e, he, hexception⟩ := outcome_mergeSection_of_ne hne base
          (dir ++ "/" ++ base ++ ".conf") (.object o)
        left
        refine ⟨?_, ?_⟩
        · intro _ fo _ hfo
          exact absurd hfo (hne fo)
        · rw [newValue_of_ne hne, assign_self hbase]
          exact outcome_catching_error he hexception

/-- The files leave their values, or the merge does not end. -/
theorem mergeFiles_cases (dir : String) (files : List (String × File))
    (hnames : (files.map Prod.fst).Nodup) (o : List (String × Json D)) :
    (∀ m ∈ files, Ends env (o.lookup m.1) m.2) ∧
      outcome (mergeFiles env dir files) (.object o) =
        (.ok (), .object (mergedFiles env dir files o)) ∨
    (∃ m ∈ files, ¬ Ends env (o.lookup m.1) m.2) ∧
      ∃ j, outcome (mergeFiles env dir files) (.object o) = (.error .diverges, j) := by
  induction files generalizing o with
  | nil =>
      exact Or.inl ⟨nofun, rfl⟩
  | cons m rest ih =>
      obtain ⟨base, file⟩ := m
      simp only [List.map_cons, List.nodup_cons] at hnames
      rcases mergeFile_cases o dir base file with ⟨hends, hmerge⟩ | ⟨hnot, j, hj⟩
      · have hlookup : ∀ m ∈ rest, (Assoc.assign base
            (newValue env dir base (o.lookup base) file) o).lookup m.1 = o.lookup m.1 := by
          intro m hm
          have hne : m.1 ≠ base := by
            intro heq
            exact hnames.1 (heq ▸ List.mem_map_of_mem hm)
          rw [Assoc.lookup_assign, if_neg hne]
        rw [mergeFiles, outcome_bind_ok hmerge]
        rcases ih hnames.2 (Assoc.assign base
          (newValue env dir base (o.lookup base) file) o) with
          ⟨hrest, hfiles⟩ | ⟨⟨m, hm, hnot⟩, hdiverges⟩
        · left
          refine ⟨?_, hfiles⟩
          intro m hm
          rcases List.mem_cons.mp hm with rfl | hm
          · exact hends
          · rw [← hlookup m hm]
            exact hrest m hm
        · right
          refine ⟨⟨m, List.mem_cons_of_mem _ hm, ?_⟩, hdiverges⟩
          rw [← hlookup m hm]
          exact hnot
      · right
        refine ⟨⟨(base, file), List.mem_cons_self, hnot⟩, j, ?_⟩
        rw [mergeFiles, outcome_bind_error hj]

theorem lookup_mergedFiles_of_notMem (dir : String) {files : List (String × File)}
    {k : String} (hk : k ∉ files.map Prod.fst) (o : List (String × Json D)) :
    (mergedFiles env dir files o).lookup k = o.lookup k := by
  induction files generalizing o with
  | nil =>
      rfl
  | cons m rest ih =>
      obtain ⟨base, file⟩ := m
      simp only [List.map_cons, List.mem_cons, not_or] at hk
      rw [mergedFiles, ih hk.2, Assoc.lookup_assign, if_neg hk.1]

/-- The section of a file after all files. -/
theorem lookup_mergedFiles_of_mem (dir : String) {files : List (String × File)}
    (hnames : (files.map Prod.fst).Nodup) {base : String} {file : File}
    (hmem : (base, file) ∈ files) (o : List (String × Json D)) :
    (mergedFiles env dir files o).lookup base =
      some (newValue env dir base (o.lookup base) file) := by
  induction files generalizing o with
  | nil =>
      cases hmem
  | cons m rest ih =>
      obtain ⟨base₀, file₀⟩ := m
      simp only [List.map_cons, List.nodup_cons] at hnames
      rw [mergedFiles]
      rcases List.mem_cons.mp hmem with heq | hrest
      · cases heq
        rw [lookup_mergedFiles_of_notMem dir hnames.1, Assoc.lookup_assign, if_pos rfl]
      · have hne : base ≠ base₀ := by
          intro heq
          exact hnames.1 (heq ▸ List.mem_map_of_mem hrest)
        rw [ih hnames.2 hrest, Assoc.lookup_assign, if_neg hne]

theorem sorted_mergedFiles (dir : String) (files : List (String × File))
    {o : List (String × Json D)} (ho : Assoc.Sorted o) :
    Assoc.Sorted (mergedFiles env dir files o) := by
  induction files generalizing o with
  | nil =>
      exact ho
  | cons m rest ih =>
      obtain ⟨base, file⟩ := m
      exact ih (Assoc.sorted_assign ho)

end Files

section Law

/-- What the merge is for. -/
structure MergeLaw (env : Env D) (o : List (String × Json D))
    (files : List (String × File)) (result : Json D) : Prop where
  /-- in a section of the top level, its values take precedence over those of the file -/
  merged : ∀ base file so fo, (base, file) ∈ files → o.lookup base = some (.object so) →
    file.complete? env = some (.object fo) →
    ∃ ro, result.member base = some (.object ro) ∧
      ∀ k, ro.lookup k = (so.lookup k).or (fo.lookup k)
  /-- any other section is the file -/
  added : ∀ base file fo, (base, file) ∈ files → o.lookup base = none →
    file.complete? env = some (.object fo) → result.member base = some (.object fo)
  /-- a file that cannot be parsed contributes nothing -/
  ignored : ∀ base file, (base, file) ∈ files → file.complete? env = none →
    result.member base = o.lookup base
  /-- the other members of the top level are unchanged -/
  kept : ∀ k, k ∉ files.map Prod.fst → result.member k = o.lookup k

/-- Every file that cannot be parsed is about a section of the top level. -/
def Covered (env : Env D) (o : List (String × Json D)) (files : List (String × File)) :
    Prop :=
  ∀ base file, (base, file) ∈ files → file.complete? env = none → (o.lookup base).isSome

/-- The merged members follow the law if no section is left of a file that cannot be
parsed. -/
theorem mergeLaw_iff (dir : String) {files : List (String × File)}
    (hnames : (files.map Prod.fst).Nodup) (o : List (String × Json D)) :
    MergeLaw env o files (.object (mergedFiles env dir files o)) ↔ Covered env o files := by
  constructor
  · intro hlaw base file hmem hfile
    have hkept := hlaw.ignored base file hmem hfile
    rw [member, lookup_mergedFiles_of_mem dir hnames hmem] at hkept
    rw [← hkept]
    rfl
  · intro hcovered
    constructor
    · intro base file so fo hmem hbase hfile
      refine ⟨fill so fo, ?_, lookup_fill so fo⟩
      rw [member, lookup_mergedFiles_of_mem dir hnames hmem, hbase]
      simp only [newValue, hfile, sectionValue]
    · intro base file fo hmem hbase hfile
      rw [member, lookup_mergedFiles_of_mem dir hnames hmem, hbase, newValue,
        parseFile_of_complete hfile]
    · intro base file hmem hfile
      obtain ⟨top, htop⟩ := Option.isSome_iff_exists.mp (hcovered base file hmem hfile)
      rw [member, lookup_mergedFiles_of_mem dir hnames hmem, htop, newValue_of_ne]
      intro fo hfo
      rw [hfile] at hfo
      cases hfo
    · intro k hk
      exact lookup_mergedFiles_of_notMem dir hk o

variable {sys : System D} {file dir : String} {s : Process D} {o : List (String × Json D)}

/-- The construction of a configuration that is not in the cache. -/
theorem configFile_cases (htop : (sys.file file).complete? sys.env = some (.object o))
    (hdir : configDir sys (.object o) = .ok dir) (hnew : s.configs file = none)
    (hnames : ((sys.conf dir).map Prod.fst).Nodup) :
    (∀ m ∈ sys.conf dir, Ends sys.env (o.lookup m.1) m.2) ∧
      (outcome (configFile sys file) s).1 =
        .ok (.object (mergedFiles sys.env dir (sys.conf dir) o)) ∨
    (∃ m ∈ sys.conf dir, ¬ Ends sys.env (o.lookup m.1) m.2) ∧
      (outcome (configFile sys file) s).1 = .error .diverges := by
  have hload : ∀ r, outcome (mergeFiles sys.env dir (sys.conf dir)) (.object o) = r →
      (outcome (configFile sys file) s).1 = r.1.map fun _ => r.2 := by
    rintro r rfl
    rw [configFile, outcome_answering, outcome_loadConfig_none hnew, firstLoad]
    simp only [parseFile_of_complete htop, hdir]
  rcases mergeFiles_cases dir (sys.conf dir) hnames o with
    ⟨hends, hmerge⟩ | ⟨hnot, j, hj⟩
  · exact Or.inl ⟨hends, hload _ hmerge⟩
  · exact Or.inr ⟨hnot, hload _ hj⟩

/-- The configuration follows the law of the merge if and only if every file of `config.d`
that cannot be parsed is about a section of the top-level file, and the values that have to
be copied have no array of `2 ^ 32` or more elements. -/
theorem config_merge (htop : (sys.file file).complete? sys.env = some (.object o))
    (hdir : configDir sys (.object o) = .ok dir) (hnew : s.configs file = none)
    (hnames : ((sys.conf dir).map Prod.fst).Nodup) :
    (∃ result, (outcome (configFile sys file) s).1 = .ok result ∧
      MergeLaw sys.env o (sys.conf dir) result) ↔
    Covered sys.env o (sys.conf dir) ∧
      ∀ base conf, (base, conf) ∈ sys.conf dir → Ends sys.env (o.lookup base) conf := by
  rcases configFile_cases htop hdir hnew hnames with
    ⟨hends, hresult⟩ | ⟨⟨m, hm, hnot⟩, hresult⟩
  · rw [hresult]
    constructor
    · rintro ⟨result, hok, hlaw⟩
      cases hok
      exact ⟨(mergeLaw_iff dir hnames o).mp hlaw, fun base conf hmem => hends _ hmem⟩
    · rintro ⟨hcovered, -⟩
      exact ⟨_, rfl, (mergeLaw_iff dir hnames o).mpr hcovered⟩
  · rw [hresult]
    constructor
    · rintro ⟨result, hok, -⟩
      cases hok
    · rintro ⟨-, hall⟩
      exact absurd (hall m.1 m.2 hm) hnot

/-- A system with the file `{"config_dir":"/etc/d"}` and one file in `/etc/d`. -/
def oneConf (base : String) (conf : File) : System ℤ where
  env := wholeNumbers
  file := fun _ => .text (.document (.map [("config_dir", .string "/etc/d")]))
  conf := fun _ => [(base, conf)]
  serverRoot := "/"

theorem complete?_oneConf (base : String) (conf : File) (file : String) :
    ((oneConf base conf).file file).complete? wholeNumbers =
      some (.object [("config_dir", .string "/etc/d")]) := rfl

theorem configDir_oneConf (base : String) (conf : File) :
    configDir (oneConf base conf) (.object [("config_dir", .string "/etc/d")]) =
      .ok "/etc/d" := rfl

theorem nodup_oneConf (base : String) (conf : File) :
    (((oneConf base conf).conf "/etc/d").map Prod.fst).Nodup := by
  simp [oneConf]

theorem config_merge_added :
    ∃ result, (outcome (configFile (oneConf "a" (.text (.document (.map
        [("x", .boolean true)])))) "gearbox.conf") Process.start).1 = .ok result ∧
      MergeLaw wholeNumbers [("config_dir", .string "/etc/d")]
        [("a", .text (.document (.map [("x", .boolean true)])))] result := by
  apply (config_merge (complete?_oneConf "a" _ _) (configDir_oneConf "a" _) rfl
    (nodup_oneConf "a" _)).mpr
  constructor
  · intro base file hmem hfile
    cases List.mem_singleton.mp hmem
    cases hfile
  · intro base file hmem top fo htop hfile
    cases List.mem_singleton.mp hmem
    cases htop

/-- The text `{"x":true` leaves a section that the law does not allow. -/
theorem config_merge_broken :
    ¬ ∃ result, (outcome (configFile (oneConf "a" (.text (.broken (.map
        [("x", .boolean true)]) 3))) "gearbox.conf") Process.start).1 = .ok result ∧
      MergeLaw wholeNumbers [("config_dir", .string "/etc/d")]
        [("a", .text (.broken (.map [("x", .boolean true)]) 3))] result := by
  rintro ⟨result, hok, hlaw⟩
  rcases configFile_cases (complete?_oneConf "a" (.text (.broken (.map
      [("x", .boolean true)]) 3)) "gearbox.conf") (configDir_oneConf "a" _)
      (s := Process.start) rfl (nodup_oneConf "a" _) with ⟨-, hresult⟩ | ⟨-, hresult⟩
  · cases hok.symm.trans hresult
    have hcovered := (mergeLaw_iff "/etc/d" (nodup_oneConf "a" _) _).mp hlaw
    cases hcovered "a" _ List.mem_cons_self rfl
  · cases hok.symm.trans hresult

end Law

end Config

end Gearbox
