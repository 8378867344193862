import Gearbox.Config.Merge

/-!
# The configuration of the service builder

The service builder reads the same files in Perl. It replaces a section of the top-level
file by the file of `config.d` with its name, where `ConfigFile` keeps the settings of the
top level and adds what is missing. The two readers see the same configuration exactly if
each file repeats the settings that the top level has for its section.

`from_json` and `glob` of Perl are parameters: a well-formed text has the same tree for
both parsers, and the files of a directory come in some order.
-/

namespace Gearbox

namespace Config

open Json Refinement

variable {D : Type}

section Perl

variable (fromJson : Text → Option (Json D))

/-- `parseJson` of the builder, which dies for a file that cannot be read or parsed. -/
def parseJson : File → Option (Json D)
  | .text t => fromJson t
  | _ => none

/-- The directory of the other files: `$cfg->{config_dir}`, or the default if that is not
true. A value that is neither a string nor `null` does not name a directory. -/
def builderDir (cfg : Json D) : Option String :=
  match cfg.member "config_dir" with
  | none => some "/etc/gearbox/config.d"
  | some .undef => some "/etc/gearbox/config.d"
  | some (.string dir) =>
    some (if dir = "" ∨ dir = "0" then "/etc/gearbox/config.d" else dir)
  | some _ => none

/-- The loop over the files of the directory. -/
def replaceSections :
    List (String × File) → List (String × Json D) → Option (List (String × Json D))
  | [], cfg => some cfg
  | (base, file) :: rest, cfg => do
    let j ← parseJson fromJson file
    replaceSections rest (Assoc.assign base j cfg)

/-- `Gearbox::Service::Builder::services`: the configuration that the builder sees. -/
def builderConfig (glob : String → List (String × File)) (file : File) :
    Option (Json D) := do
  match ← parseJson fromJson file with
  | .object cfg =>
    let dir ← builderDir (.object cfg)
    return .object (← replaceSections fromJson (glob dir) cfg)
  | _ => none

end Perl

section Sections

variable {env : Env D} {fromJson : Text → Option (Json D)}

/-- The Perl parser reads what the parser of the source reads. -/
def ReadsAlike (env : Env D) (fromJson : Text → Option (Json D)) : Prop :=
  ∀ text j, Json.complete? env text = some j → fromJson text = some j

theorem parseJson_of_complete (hperl : ReadsAlike env fromJson) {file : File} {j : Json D}
    (h : file.complete? env = some j) : parseJson fromJson file = some j := by
  cases file with
  | absent => cases h
  | unreadable => cases h
  | text t => exact hperl t j h

/-- What the builder has at a key: the file about it, or the value of the top level. -/
structure Replaced (env : Env D) (files : List (String × File))
    (o cfg : List (String × Json D)) : Prop where
  sorted : Assoc.Sorted cfg
  file : ∀ base file j, (base, file) ∈ files → file.complete? env = some j →
    cfg.lookup base = some j
  other : ∀ k, k ∉ files.map Prod.fst → cfg.lookup k = o.lookup k

theorem replaced_replaceSections (hperl : ReadsAlike env fromJson)
    {files : List (String × File)} (hfiles : ∀ m ∈ files, (m.2.complete? env).isSome)
    (hnames : (files.map Prod.fst).Nodup) {o : List (String × Json D)}
    (ho : Assoc.Sorted o) :
    ∃ cfg, replaceSections fromJson files o = some cfg ∧ Replaced env files o cfg := by
  induction files generalizing o with
  | nil =>
      refine ⟨o, rfl, ho, ?_, fun _ _ => rfl⟩
      intro base file j hmem
      cases hmem
  | cons m rest ih =>
      obtain ⟨base, file⟩ := m
      simp only [List.map_cons, List.nodup_cons] at hnames
      obtain ⟨j, hj⟩ := Option.isSome_iff_exists.mp (hfiles (base, file) List.mem_cons_self)
      obtain ⟨cfg, hcfg, hreplaced⟩ := ih
        (fun m hm => hfiles m (List.mem_cons_of_mem _ hm)) hnames.2
        (Assoc.sorted_assign (k := base) (v := j) ho)
      refine ⟨cfg, ?_, hreplaced.sorted, ?_, ?_⟩
      · rw [replaceSections, parseJson_of_complete hperl hj]
        exact hcfg
      · intro base' file' j' hmem hj'
        rcases List.mem_cons.mp hmem with heq | hrest
        · cases heq
          rw [hj] at hj'
          cases hj'
          rw [hreplaced.other base hnames.1, Assoc.lookup_assign, if_pos rfl]
        · exact hreplaced.file base' file' j' hrest hj'
      · intro k hk
        simp only [List.map_cons, List.mem_cons, not_or] at hk
        rw [hreplaced.other k hk.2, Assoc.lookup_assign, if_neg hk.1]

/-- The file repeats what the top level says about its section. -/
def Repeats (top file : Json D) : Prop :=
  match top, file with
  | .object so, .object fo => ∀ k v, so.lookup k = some v → fo.lookup k = some v
  | .undef, .object fo => fo ≠ []
  | top, file => top = file

/-- The members of a file are what a merge makes of them if they repeat the section. -/
theorem fill_eq_iff {so fo : List (String × Json D)} (hso : Assoc.Sorted so)
    (hfo : Assoc.Sorted fo) :
    fill so fo = fo ↔ ∀ k v, so.lookup k = some v → fo.lookup k = some v := by
  constructor
  · intro h k v hv
    rw [← h, lookup_fill, hv]
    rfl
  · intro h
    apply (sorted_fill hso fo).ext hfo
    intro k
    rw [lookup_fill]
    cases hk : so.lookup k with
    | none => rfl
    | some v => exact (h k v hk).symm

/-- The two readers have the same value at a section of the top level. -/
theorem newValue_eq_iff {file : File} {top j : Json D} (htop : top.Ordered)
    (hj : file.complete? env = some j) (hordered : j.Ordered) (dir base : String) :
    newValue env dir base (some top) file = j ↔ Repeats top j := by
  by_cases hobject : ∃ fo, j = .object fo
  · obtain ⟨fo, rfl⟩ := hobject
    rw [Ordered] at hordered
    have hvalue : newValue env dir base (some top) file = sectionValue top fo := by
      simp only [newValue, hj]
    rw [hvalue]
    cases top with
    | object so =>
        rw [Ordered] at htop
        rw [sectionValue, Json.object.injEq]
        exact fill_eq_iff htop.1 hordered.1
    | undef =>
        have hfill : fill [] fo = fo := by
          apply (fill_eq_iff Assoc.sorted_nil hordered.1).mpr
          intro k v hv
          cases hv
        cases fo with
        | nil =>
            constructor
            · intro h
              cases h
            · intro h
              exact absurd rfl h
        | cons m rest =>
            constructor
            · intro _ hnil
              cases hnil
            · intro _
              exact congrArg Json.object hfill
    | bool b => rfl
    | int n => rfl
    | double x => rfl
    | string v => rfl
    | array a => rfl
  · have hne : ∀ fo, file.complete? env ≠ some (.object fo) := by
      intro fo hfo
      rw [hj] at hfo
      cases hfo
      exact hobject ⟨fo, rfl⟩
    rw [newValue_of_ne hne]
    cases j with
    | object fo => exact absurd ⟨fo, rfl⟩ hobject
    | undef => cases top <;> rfl
    | bool b => cases top <;> rfl
    | int n => cases top <;> rfl
    | double x => cases top <;> rfl
    | string v => cases top <;> rfl
    | array a => cases top <;> rfl

end Sections

section Readers

variable {sys : System D} {fromJson : Text → Option (Json D)}
  {glob : String → List (String × File)} {file dir : String} {s : Process D}
  {o : List (String × Json D)}

theorem configDir_of_absolute (hdir : o.lookup "config_dir" = some (.string dir))
    (habsolute : dir.toList.head? = some '/') : configDir sys (.object o) = .ok dir := by
  obtain ⟨rest, hrest⟩ := List.head?_eq_some_iff.mp habsolute
  have hmember : (Json.object o).member "config_dir" = some (.string dir) := hdir
  simp only [configDir, hmember]
  change serverAbspath sys.serverRoot dir = .ok dir
  simp [serverAbspath, hrest]

theorem builderDir_of_absolute (hdir : o.lookup "config_dir" = some (.string dir))
    (habsolute : dir.toList.head? = some '/') : builderDir (.object o) = some dir := by
  have hmember : (Json.object o).member "config_dir" = some (.string dir) := hdir
  have hdir' : ¬ (dir = "" ∨ dir = "0") := by
    rintro (rfl | rfl)
    · cases habsolute
    · cases habsolute
  simp only [builderDir, hmember, if_neg hdir']

/-- The configuration of the builder. -/
theorem replaced_builderConfig (hperl : ReadsAlike sys.env fromJson)
    (htop : (sys.file file).complete? sys.env = some (.object o))
    (hdir : o.lookup "config_dir" = some (.string dir))
    (habsolute : dir.toList.head? = some '/')
    (hconf : ∀ m ∈ sys.conf dir, (m.2.complete? sys.env).isSome)
    (hnames : ((sys.conf dir).map Prod.fst).Nodup)
    (hglob : (glob dir).Perm (sys.conf dir)) (ho : Assoc.Sorted o) :
    ∃ cfg, builderConfig fromJson glob (sys.file file) = some (.object cfg) ∧
      Replaced sys.env (sys.conf dir) o cfg := by
  have hconf' : ∀ m ∈ glob dir, (m.2.complete? sys.env).isSome :=
    fun m hm => hconf m (hglob.mem_iff.mp hm)
  have hnames' : ((glob dir).map Prod.fst).Nodup :=
    (hglob.map Prod.fst).nodup_iff.mpr hnames
  obtain ⟨cfg, hcfg, hreplaced⟩ := replaced_replaceSections hperl hconf' hnames' ho
  refine ⟨cfg, ?_, hreplaced.sorted, ?_, ?_⟩
  · rw [builderConfig, parseJson_of_complete hperl htop]
    simp only [Option.bind_eq_bind, Option.bind_some,
      builderDir_of_absolute hdir habsolute, hcfg]
    rfl
  · intro base conf j hmem
    exact hreplaced.file base conf j (hglob.mem_iff.mpr hmem)
  · intro k hk
    apply hreplaced.other k
    rwa [(hglob.map Prod.fst).mem_iff]

theorem ordered_file {conf : File} {j : Json D} (h : conf.complete? sys.env = some j) :
    j.Ordered := by
  cases conf with
  | absent => cases h
  | unreadable => cases h
  | text t => exact ordered_complete? h

/-- The members of both configurations are the same if and only if every file repeats the
section of the top level. -/
theorem mergedFiles_eq_iff {cfg : List (String × Json D)} (ho : (Json.object o).Ordered)
    (hconf : ∀ m ∈ sys.conf dir, (m.2.complete? sys.env).isSome)
    (hnames : ((sys.conf dir).map Prod.fst).Nodup)
    (hcfg : Replaced sys.env (sys.conf dir) o cfg) :
    mergedFiles sys.env dir (sys.conf dir) o = cfg ↔
      ∀ base conf v top, (base, conf) ∈ sys.conf dir →
        conf.complete? sys.env = some v → o.lookup base = some top → Repeats top v := by
  rw [Ordered, orderedMembers_iff] at ho
  have htop : ∀ {base top}, o.lookup base = some top → top.Ordered := by
    intro base top hbase
    exact ho.2 (base, top) ((Assoc.mem_iff_lookup ho.1).mpr hbase)
  constructor
  · rintro rfl base conf v top hmem hv hbase
    have hvalue := hcfg.file base conf v hmem hv
    rw [lookup_mergedFiles_of_mem dir hnames hmem, hbase, Option.some.injEq] at hvalue
    exact (newValue_eq_iff (htop hbase) hv (ordered_file hv) dir base).mp hvalue
  · intro hrepeats
    apply (sorted_mergedFiles dir _ ho.1).ext hcfg.sorted
    intro k
    by_cases hk : k ∈ (sys.conf dir).map Prod.fst
    · obtain ⟨⟨base, conf⟩, hmem, rfl⟩ := List.mem_map.mp hk
      obtain ⟨v, hv⟩ := Option.isSome_iff_exists.mp (hconf _ hmem)
      rw [lookup_mergedFiles_of_mem dir hnames hmem, hcfg.file base conf v hmem hv,
        Option.some.injEq]
      cases hbase : o.lookup base with
      | none => rw [newValue, parseFile_of_complete hv]
      | some top =>
          exact (newValue_eq_iff (htop hbase) hv (ordered_file hv) dir base).mpr
            (hrepeats base conf v top hmem hv hbase)
    · rw [lookup_mergedFiles_of_notMem dir hk, hcfg.other k hk]

/-- The two readers see the same configuration if and only if every file of `config.d`
about a section of the top-level file repeats the settings of that section, and the rest of
it can be copied. -/
theorem readers_agree (hperl : ReadsAlike sys.env fromJson)
    (htop : (sys.file file).complete? sys.env = some (.object o))
    (hdir : o.lookup "config_dir" = some (.string dir))
    (habsolute : dir.toList.head? = some '/')
    (hconf : ∀ m ∈ sys.conf dir, (m.2.complete? sys.env).isSome)
    (hnames : ((sys.conf dir).map Prod.fst).Nodup)
    (hglob : (glob dir).Perm (sys.conf dir)) (hnew : s.configs file = none) :
    (∃ config, (outcome (configFile sys file) s).1 = .ok config ∧
      builderConfig fromJson glob (sys.file file) = some config) ↔
    ∀ base conf v top, (base, conf) ∈ sys.conf dir → conf.complete? sys.env = some v →
      o.lookup base = some top → Repeats top v ∧ Ends sys.env (some top) conf := by
  have ho : (Json.object o).Ordered := ordered_file htop
  have hsorted : Assoc.Sorted o := by
    rw [Ordered] at ho
    exact ho.1
  obtain ⟨cfg, hcfg, hreplaced⟩ :=
    replaced_builderConfig hperl htop hdir habsolute hconf hnames hglob hsorted
  rw [hcfg]
  rcases configFile_cases htop (configDir_of_absolute hdir habsolute) hnew hnames with
    ⟨hends, hresult⟩ | ⟨⟨m, hm, hnot⟩, hresult⟩
  · rw [hresult]
    constructor
    · rintro ⟨config, hconfig, hbuilder⟩ base conf v top hmem hv hbase
      cases hconfig
      rw [Option.some.injEq, Json.object.injEq] at hbuilder
      refine ⟨(mergedFiles_eq_iff ho hconf hnames hreplaced).mp hbuilder.symm base conf v
        top hmem hv hbase, ?_⟩
      rw [← hbase]
      exact hends (base, conf) hmem
    · intro h
      refine ⟨_, rfl, ?_⟩
      rw [(mergedFiles_eq_iff ho hconf hnames hreplaced).mpr]
      intro base conf v top hmem hv hbase
      exact (h base conf v top hmem hv hbase).1
  · rw [hresult]
    constructor
    · rintro ⟨config, hconfig, -⟩
      cases hconfig
    · intro h
      obtain ⟨v, hv⟩ := Option.isSome_iff_exists.mp (hconf m hm)
      cases hbase : o.lookup m.1 with
      | none =>
          rw [hbase] at hnot
          exact absurd nofun hnot
      | some top =>
          rw [hbase] at hnot
          exact absurd (h m.1 m.2 v top hm hv hbase).2 hnot

theorem readers_agree_added :
    ∃ config, (outcome (configFile (oneConf "a" (.text (.document (.map
        [("x", .boolean true)])))) "gearbox.conf") Process.start).1 = .ok config ∧
      builderConfig (Json.complete? wholeNumbers)
        (fun _ => [("a", .text (.document (.map [("x", .boolean true)])))])
        (.text (.document (.map [("config_dir", .string "/etc/d")]))) = some config := by
  refine (readers_agree (o := [("config_dir", .string "/etc/d")]) (fun _ _ h => h)
    (complete?_oneConf "a" _ "gearbox.conf") rfl rfl ?_ (nodup_oneConf "a" _)
    (List.Perm.refl _) rfl).mpr ?_
  · intro m hm
    cases List.mem_singleton.mp hm
    rfl
  · intro base conf v top hmem hv hbase
    cases List.mem_singleton.mp hmem
    cases hbase

/-- A system with the section `{"x":true}` and the file `{"x":false}` about it. -/
def twoSettings : System ℤ where
  env := wholeNumbers
  file := fun _ => .text (.document (.map
    [("a", .map [("x", .boolean true)]), ("config_dir", .string "/etc/d")]))
  conf := fun _ => [("a", .text (.document (.map [("x", .boolean false)])))]
  serverRoot := "/"

/-- The builder has the setting of the file, and `ConfigFile` that of the top level. -/
theorem readers_disagree :
    ¬ ∃ config, (outcome (configFile twoSettings "gearbox.conf") Process.start).1 =
        .ok config ∧
      builderConfig (Json.complete? wholeNumbers) twoSettings.conf
        (twoSettings.file "gearbox.conf") = some config := by
  rintro ⟨config, hconfig, hbuilder⟩
  have hperl : builderConfig (Json.complete? wholeNumbers) twoSettings.conf
      (twoSettings.file "gearbox.conf") = some (.object [("a", .object [("x", .bool false)]),
        ("config_dir", .string "/etc/d")]) := rfl
  have htop : (twoSettings.file "gearbox.conf").complete? twoSettings.env =
      some (.object [("a", .object [("x", .bool true)]), ("config_dir", .string "/etc/d")]) :=
    rfl
  have hnames : ((twoSettings.conf "/etc/d").map Prod.fst).Nodup := by simp [twoSettings]
  cases hperl.symm.trans hbuilder
  rcases configFile_cases htop rfl (s := Process.start) rfl hnames with
    ⟨-, hresult⟩ | ⟨-, hresult⟩
  · rw [hconfig, Except.ok.injEq, Json.object.injEq] at hresult
    have hmerged : (mergedFiles twoSettings.env "/etc/d" (twoSettings.conf "/etc/d")
        [("a", .object [("x", .bool true)]), ("config_dir", .string "/etc/d")]).lookup "a" =
        some (.object [("x", .bool true)]) :=
      lookup_mergedFiles_of_mem "/etc/d" hnames List.mem_cons_self _
    cases (congrArg (List.lookup "a") hresult).trans hmerged
  · cases hconfig.symm.trans hresult

end Readers

end Config

end Gearbox
