import Mathlib.Data.List.Induction
import Gearbox.Config.Merge
import Gearbox.Job.Accepted
import Gearbox.Job.Decode
import Gearbox.Json.Uses

/-!
# The caches of a process

A process has two caches: `CONFIG_MAP` for the configuration files and `schemas` for the schemas.
Both make the entry of a file before they parse the file into it, and the entry stays when the
parse throws. The next time the file is asked for, the entry is returned as if it were complete.

`performAll` is a process that constructs configurations, looks up schemas and decodes jobs in any
order. Its answers are `Sound` as long as no file with a failing first load is asked for twice. A
schema that is looked up is shared with those who use it, so that it is complete up to the changes
that validations make to it.
-/

namespace Gearbox

namespace Jobs

open Json Refinement Config

variable {S D : Type}

section Tally

variable {α κ : Type} [DecidableEq κ] {query : α → κ} {sound : α → Prop} {broken : κ → Prop}

/-- The answers of a list are sound if and only if no broken key is asked for twice. -/
def Tallied (query : α → κ) (sound : α → Prop) (broken : κ → Prop) (l : List α) : Prop :=
  (∀ a ∈ l, sound a) ↔ ∀ q, broken q → (l.map query).count q ≤ 1

/-- The first answer for a key is sound, and a later one is if and only if the key is not
broken. -/
theorem Tallied.append {l : List α} {a : α} (h : Tallied query sound broken l)
    (hfirst : query a ∉ l.map query → sound a)
    (hlater : query a ∈ l.map query → (sound a ↔ ¬ broken (query a))) :
    Tallied query sound broken (l ++ [a]) := by
  have hcount : ∀ q, ((l ++ [a]).map query).count q =
      (l.map query).count q + if query a = q then 1 else 0 := by
    intro q
    rw [List.map_append, List.count_append, List.map_singleton, List.count_singleton]
    simp only [beq_iff_eq]
  have hall : (∀ b ∈ l ++ [a], sound b) ↔ (∀ b ∈ l, sound b) ∧ sound a := by
    simp [or_imp, forall_and]
  have hbefore : (∀ b ∈ l, sound b) ↔ ∀ q, broken q → (l.map query).count q ≤ 1 := h
  rw [Tallied, hall, hbefore]
  by_cases hasked : query a ∈ l.map query
  · have hpos := List.count_pos_iff.mpr hasked
    rw [hlater hasked]
    constructor
    · rintro ⟨honce, hwhole⟩ q hq
      have hne : query a ≠ q := fun heq => hwhole (heq ▸ hq)
      rw [hcount, if_neg hne]
      exact honce q hq
    · intro honce
      constructor
      · intro q hq
        have hq' := honce q hq
        rw [hcount] at hq'
        omega
      · intro hbroken
        have hq' := honce _ hbroken
        rw [hcount, if_pos rfl] at hq'
        omega
  · have hzero := List.count_eq_zero.mpr hasked
    constructor
    · rintro ⟨honce, -⟩ q hq
      rw [hcount]
      by_cases heq : query a = q
      · subst heq
        rw [hzero, if_pos rfl]
      · rw [if_neg heq]
        exact honce q hq
    · intro honce
      refine ⟨fun q hq => ?_, hfirst hasked⟩
      have hq' := honce q hq
      rw [hcount] at hq'
      omega

end Tally

section Answers

/-- What a cache is asked for. -/
inductive Query where
  | config (file : String)
  | schema (file : String)
  deriving DecidableEq

/-- What an answer is an answer to. -/
def query : Answer D → Query
  | .config file _ => .config file
  | .schema file _ => .schema file

/-- The complete configuration: the tree of the file, after all files of `config.d` are merged
into it. -/
def CompleteConfig (sys : System D) (file : String) (j : Json D) : Prop :=
  ∃ top dir, (sys.file file).complete? sys.env = some top ∧ configDir sys top = .ok dir ∧
    outcome (mergeFiles sys.env dir (sys.conf dir)) top = (.ok (), j)

/-- The complete schema: the tree of the file, with what validations changed since then. -/
def CompleteSchema (sys : System D) (file : String) (t : Json.Tree D) : Prop :=
  ∃ j, (sys.file file).complete? sys.env = some j ∧
    Extends sys.env.throwing (Tree.fresh j) t

/-- A file whose first load fails. -/
def Broken (sys : System D) : Query → Prop
  | .config file => ∀ j, ¬ CompleteConfig sys file j
  | .schema file => sys.file file ≠ .absent ∧ (sys.file file).complete? sys.env = none

/-- A file that cannot be parsed makes the request fail, and what is returned is complete. -/
def Sound (sys : System D) : Answer D → Prop
  | .config file result =>
    ((sys.file file).complete? sys.env = none → ∃ e, result = .error e) ∧
      ∀ j, result = .ok j → CompleteConfig sys file j
  | .schema file result =>
    (sys.file file ≠ .absent → (sys.file file).complete? sys.env = none →
      ∃ e, result = .error e) ∧
      ∀ t, result = .ok (some t) → CompleteSchema sys file t

end Answers

section Accesses

/-- `JobManager::job` for a name and the text of an envelope -/
def decodeText (sys : System D) (st : Statuses S D) (m : Manager) (name : String)
    (text : Text) : Code (Process D) Failure (Job S) := do
  let schema ← fileSchema sys m "job-envelope"
  let r := parse sys.env.throwing text schema
  if schema.isSome then
    setSchema (m.schemaFile "job-envelope") (some r.2.store)
  r.1
  decode sys st m name r.2.json.root

/-- A schema is used by someone who looked it up. -/
def useSchema (sys : System D) (file : String) (use : Use D) : Code (Process D) Failure Unit := do
  match (← get).schemas file with
  | some (some t) => setSchema file (some (use.run sys.env.throwing t).2)
  | _ => return ()

/-- What a process does with its caches. -/
inductive Access (D : Type) where
  | config (file : String)
  | schema (m : Manager) (f : Fields)
  | job (m : Manager) (name : String) (envelope : Json D)
  | text (m : Manager) (name : String) (envelope : Text)
  | use (file : String) (how : Use D)

/-- The process after an access, however it ended. -/
def Access.perform (sys : System D) (st : Statuses S D) (s : Process D) :
    Access D → Process D
  | .config file => (outcome (configFile sys file) s).2
  | .schema m f => (outcome (getSchema sys m f) s).2
  | .job m name envelope => (outcome (decode sys st m name envelope) s).2
  | .text m name envelope => (outcome (decodeText sys st m name envelope) s).2
  | .use file how => (outcome (useSchema sys file how) s).2

/-- The process after a sequence of accesses. -/
def performAll (sys : System D) (st : Statuses S D) (accesses : List (Access D)) : Process D :=
  accesses.foldl (Access.perform sys st) Process.start

end Accesses

section Entries

variable {sys : System D}

/-- The entry of a cache, if the cache was asked for `asked` so far. -/
def Entry {α : Type} (asked : List Query) (q : Query) (good : α → Prop) : Option α → Prop
  | none => q ∉ asked
  | some content => q ∈ asked ∧ good content

theorem Entry.later {α : Type} {asked : List Query} {q q' : Query} {good : α → Prop}
    {entry : Option α} (h : Entry asked q good entry) (hne : q ≠ q') :
    Entry (asked ++ [q']) q good entry := by
  cases entry with
  | none =>
      intro hmem
      rcases List.mem_append.mp hmem with hasked | hlast
      · exact h hasked
      · exact hne (List.mem_singleton.mp hlast)
  | some content => exact ⟨List.mem_append_left _ h.1, h.2⟩

theorem entry_asked {α : Type} (asked : List Query) (q : Query) {good : α → Prop}
    {content : α} (h : good content) : Entry (asked ++ [q]) q good (some content) :=
  ⟨List.mem_append_right _ List.mem_cons_self, h⟩

/-- What is kept of a configuration. -/
def KeptConfig (sys : System D) (file : String) (content : Json D) : Prop :=
  ∀ j, CompleteConfig sys file j → content = j

/-- What is kept of a schema. -/
def KeptSchema (sys : System D) (file : String) (schema : Option (Json.Tree D)) : Prop :=
  (sys.file file = .absent → schema = none) ∧
    (sys.file file ≠ .absent → ∃ t, schema = some t ∧
      ∀ j, (sys.file file).complete? sys.env = some j →
        Extends sys.env.throwing (Tree.fresh j) t)

/-- The first construction returns the complete configuration, if there is one. -/
theorem firstLoad_eq_ok {file : String} {j : Json D} :
    (firstLoad sys file).1 = .ok j ↔ CompleteConfig sys file j := by
  rw [firstLoad, CompleteConfig]
  cases htop : (sys.file file).complete? sys.env with
  | none =>
      obtain ⟨e, he⟩ := parseFile_of_none htop file
      rw [he]
      simp
  | some top =>
      rw [parseFile_of_complete htop file]
      dsimp only
      cases hdir : configDir sys top with
      | error e => simp [hdir]
      | ok dir =>
          cases hmerged : outcome (mergeFiles sys.env dir (sys.conf dir)) top with
          | mk r content =>
              cases r with
              | error e => simp [hdir, hmerged, Except.map]
              | ok u => simp [hdir, hmerged, Except.map]

theorem keptConfig_firstLoad (file : String) : KeptConfig sys file (firstLoad sys file).2 := by
  rintro j ⟨top, dir, htop, hdir, hmerged⟩
  rw [firstLoad, parseFile_of_complete htop file]
  simp only [hdir, hmerged]

theorem sound_firstLoad (file : String) : Sound sys (.config file (firstLoad sys file).1) := by
  refine ⟨fun hnone => ?_, fun j hj => firstLoad_eq_ok.mp hj⟩
  cases hfirst : (firstLoad sys file).1 with
  | error e => exact ⟨e, rfl⟩
  | ok j =>
      obtain ⟨top, -, htop, -⟩ := firstLoad_eq_ok.mp hfirst
      rw [hnone] at htop
      cases htop

theorem sound_config_iff {file : String} {content : Json D} (h : KeptConfig sys file content) :
    Sound sys (.config file (.ok content)) ↔ ¬ Broken sys (.config file) := by
  constructor
  · rintro ⟨-, hcomplete⟩ hbroken
    exact hbroken content (hcomplete content rfl)
  · intro hwhole
    obtain ⟨j, hj⟩ := not_forall.mp hwhole
    have hcomplete : CompleteConfig sys file j := not_not.mp hj
    constructor
    · intro hnone
      obtain ⟨top, -, htop, -⟩ := hcomplete
      rw [hnone] at htop
      cases htop
    · rintro j' hj'
      cases hj'
      rwa [h j hcomplete]

theorem firstSchema_of_absent {file : String} (h : sys.file file = .absent) :
    firstSchema sys file = (.ok none, none) := by
  rw [firstSchema, h]

theorem firstSchema_of_ne {file : String} (h : sys.file file ≠ .absent) :
    firstSchema sys file =
      ((parseFile sys.env file (sys.file file)).1.map fun _ =>
        some (Tree.fresh (parseFile sys.env file (sys.file file)).2),
      some (Tree.fresh (parseFile sys.env file (sys.file file)).2)) := by
  rw [firstSchema]
  cases hfile : sys.file file with
  | absent => exact absurd hfile h
  | unreadable => rfl
  | text t => rfl

theorem keptSchema_firstSchema (file : String) :
    KeptSchema sys file (firstSchema sys file).2 := by
  constructor
  · intro habsent
    rw [firstSchema_of_absent habsent]
  · intro hpresent
    rw [firstSchema_of_ne hpresent]
    refine ⟨_, rfl, fun j hj => ?_⟩
    rw [parseFile_of_complete hj file]
    exact Extends.refl _ _

theorem sound_firstSchema (file : String) :
    Sound sys (.schema file (firstSchema sys file).1) := by
  by_cases habsent : sys.file file = .absent
  · rw [firstSchema_of_absent habsent]
    exact ⟨fun hpresent => absurd habsent hpresent, fun _ ht => nomatch ht⟩
  · rw [firstSchema_of_ne habsent]
    cases hcomplete : (sys.file file).complete? sys.env with
    | none =>
        obtain ⟨e, he⟩ := parseFile_of_none hcomplete file
        rw [he]
        exact ⟨fun _ _ => ⟨e, rfl⟩, fun _ ht => nomatch ht⟩
    | some j =>
        rw [parseFile_of_complete hcomplete file]
        constructor
        · intro _ hnone
          rw [hcomplete] at hnone
          cases hnone
        · intro t ht
          cases ht
          exact ⟨j, hcomplete, Extends.refl _ _⟩

theorem sound_schema_iff {file : String} {schema : Option (Json.Tree D)}
    (h : KeptSchema sys file schema) :
    Sound sys (.schema file (.ok schema)) ↔ ¬ Broken sys (.schema file) := by
  constructor
  · rintro ⟨hfails, -⟩ ⟨hpresent, hnone⟩
    obtain ⟨e, he⟩ := hfails hpresent hnone
    cases he
  · intro hwhole
    constructor
    · exact fun hpresent hnone => absurd ⟨hpresent, hnone⟩ hwhole
    · rintro t ht
      cases ht
      have hpresent : sys.file file ≠ .absent := fun habsent => nomatch h.1 habsent
      obtain ⟨t', ht', hextends⟩ := h.2 hpresent
      cases ht'
      cases hcomplete : (sys.file file).complete? sys.env with
      | none => exact absurd ⟨hpresent, hcomplete⟩ hwhole
      | some j => exact ⟨j, hcomplete, hextends j hcomplete⟩

end Entries

section Consistent

variable {sys : System D}

/-- What holds in every state of a process. -/
structure Consistent (sys : System D) (s : Process D) : Prop where
  config : ∀ file, Entry (s.answers.map query) (.config file) (KeptConfig sys file)
    (s.configs file)
  schema : ∀ file, Entry (s.answers.map query) (.schema file) (KeptSchema sys file)
    (s.schemas file)
  tallied : Tallied query (Sound sys) (Broken sys) s.answers

theorem consistent_start : Consistent sys Process.start where
  config _ := List.not_mem_nil
  schema _ := List.not_mem_nil
  tallied := ⟨fun _ _ _ => Nat.zero_le 1, fun _ _ h => nomatch h⟩

/-- A configuration is asked for, and the entry of the file is `content` then. -/
theorem Consistent.config_answered {s : Process D} (h : Consistent sys s) {file : String}
    {content : Json D} {result : Except Failure (Json D)} (hkept : KeptConfig sys file content)
    (hfirst : .config file ∉ s.answers.map query → Sound sys (.config file result))
    (hlater : .config file ∈ s.answers.map query →
      (Sound sys (.config file result) ↔ ¬ Broken sys (.config file))) :
    Consistent sys { s with
      configs := Function.update s.configs file (some content)
      answers := s.answers ++ [.config file result] } where
  config file' := by
    rw [List.map_append]
    by_cases hfile : file' = file
    · subst hfile
      simp only [Function.update_self]
      exact entry_asked _ _ hkept
    · simp only [Function.update_of_ne hfile]
      exact (h.config file').later fun heq => hfile (Query.config.inj heq)
  schema file' := by
    rw [List.map_append]
    exact (h.schema file').later nofun
  tallied := h.tallied.append hfirst hlater

/-- A schema is asked for, and the entry of the file is `schema` then. -/
theorem Consistent.schema_answered {s : Process D} (h : Consistent sys s) {file : String}
    {schema : Option (Json.Tree D)} {result : Except Failure (Option (Json.Tree D))}
    (hkept : KeptSchema sys file schema)
    (hfirst : .schema file ∉ s.answers.map query → Sound sys (.schema file result))
    (hlater : .schema file ∈ s.answers.map query →
      (Sound sys (.schema file result) ↔ ¬ Broken sys (.schema file))) :
    Consistent sys { s with
      schemas := Function.update s.schemas file (some schema)
      answers := s.answers ++ [.schema file result] } where
  config file' := by
    rw [List.map_append]
    exact (h.config file').later nofun
  schema file' := by
    rw [List.map_append]
    by_cases hfile : file' = file
    · subst hfile
      simp only [Function.update_self]
      exact entry_asked _ _ hkept
    · simp only [Function.update_of_ne hfile]
      exact (h.schema file').later fun heq => hfile (Query.schema.inj heq)
  tallied := h.tallied.append hfirst hlater

theorem keeps_configFile (file : String) : Keeps (Consistent sys) (configFile sys file) := by
  intro s h
  have hentry := h.config file
  rw [configFile, outcome_answering]
  cases hcached : s.configs file with
  | some content =>
      rw [hcached] at hentry
      have hsame : Function.update s.configs file (some content) = s.configs := by
        rw [← hcached, Function.update_eq_self]
      have hnext := h.config_answered hentry.2 (fun hnew => absurd hentry.1 hnew)
        fun _ => sound_config_iff hentry.2
      rw [hsame] at hnext
      rw [outcome_loadConfig_some hcached]
      exact hnext
  | none =>
      rw [hcached] at hentry
      rw [outcome_loadConfig_none hcached]
      exact h.config_answered (keptConfig_firstLoad file) (fun _ => sound_firstLoad file)
        fun hasked => absurd hasked hentry

theorem keeps_fileSchema (m : Manager) (schema : String) :
    Keeps (Consistent sys) (fileSchema sys m schema) := by
  intro s h
  have hentry := h.schema (m.schemaFile schema)
  rw [fileSchema, outcome_answering]
  cases hcached : s.schemas (m.schemaFile schema) with
  | some found =>
      rw [hcached] at hentry
      have hsame : Function.update s.schemas (m.schemaFile schema) (some found) =
          s.schemas := by
        rw [← hcached, Function.update_eq_self]
      have hnext := h.schema_answered hentry.2 (fun hnew => absurd hentry.1 hnew)
        fun _ => sound_schema_iff hentry.2
      rw [hsame] at hnext
      rw [outcome_loadSchema_some hcached]
      exact hnext
  | none =>
      rw [hcached] at hentry
      rw [outcome_loadSchema_none hcached]
      exact h.schema_answered (keptSchema_firstSchema _) (fun _ => sound_firstSchema _)
        fun hasked => absurd hasked hentry

/-- A use of a schema that is in the cache. -/
theorem Consistent.used {s : Process D} (h : Consistent sys s) {file : String} {t : Json.Tree D}
    (ht : s.schemas file = some (some t)) (how : Use D) :
    Consistent sys { s with
      schemas := Function.update s.schemas file
        (some (some (how.run sys.env.throwing t).2)) } where
  config := h.config
  schema file' := by
    by_cases hfile : file' = file
    · subst hfile
      have hentry := h.schema file'
      rw [ht] at hentry
      obtain ⟨hasked, habsent, hpresent⟩ := hentry
      simp only [Function.update_self]
      refine ⟨hasked, fun hfile => absurd (habsent hfile) (by simp), fun hfile => ⟨_, rfl, ?_⟩⟩
      obtain ⟨t', ht', hextends⟩ := hpresent hfile
      cases ht'
      intro j hj
      exact (hextends j hj).trans
        (extends_run (setOnSchemas_of_throwing sys.env.throwing_errHandler j)
          (hextends j hj) how)
    · simp only [Function.update_of_ne hfile]
      exact h.schema file'
  tallied := h.tallied

theorem keeps_useSchema (file : String) (how : Use D) :
    Keeps (Consistent sys) (useSchema sys file how) := by
  intro s h
  rw [useSchema, outcome_bind_ok (outcome_get s)]
  cases hcached : s.schemas file with
  | none => exact h
  | some schema =>
      cases schema with
      | none => exact h
      | some t => exact h.used hcached how

end Consistent

section Decoding

variable {sys : System D} {st : Statuses S D} {m : Manager} {P : Process D → Prop}

/-- The property is kept by the look-ups of schemas, and it is not about the base uri. -/
structure Undisturbed (sys : System D) (m : Manager) (P : Process D → Prop) : Prop where
  lookup : ∀ schema, Keeps P (fileSchema sys m schema)
  baseUri : ∀ s uri, P s → P { s with baseUri := uri }

theorem keeps_getSchema (h : ∀ schema, Keeps P (fileSchema sys m schema)) (f : Fields) :
    Keeps P (getSchema sys m f) := by
  rw [getSchema]
  refine (h _).bind fun own => ?_
  cases own with
  | some schema => exact keeps_pure _
  | none =>
      refine (h _).bind fun shared => ?_
      cases shared with
      | some schema => exact keeps_pure _
      | none =>
          cases m.required with
          | true => exact keeps_throw _
          | false => exact keeps_pure _

theorem keeps_decodeRest (h : Undisturbed sys m P) (envelope : Json D) (f : Fields)
    (events : Event → Option (Job S)) : Keeps P (decodeRest sys st m envelope f events) := by
  have hbase : ∀ f, Keeps P (readBaseUri envelope f) := by
    intro f
    rw [readBaseUri]
    cases envelope.member "base_uri" with
    | none => exact keeps_pure _
    | some v => exact (keeps_lift _).bind fun uri => fun s hs => h.baseUri s uri hs
  rw [decodeRest]
  refine (keeps_lift _).bind fun f => (hbase f).bind fun f => (keeps_lift _).bind fun f => ?_
  refine (keeps_getSchema h.lookup f).bind fun _ => (keeps_lift _).bind fun f => ?_
  exact (keeps_lift _).bind fun eventStatus => keeps_pure _

mutual

/-- What every look-up keeps is kept by the decoding of an envelope. -/
theorem keeps_decode (h : Undisturbed sys m P) (name : String) (envelope : Json D) :
    Keeps P (decode sys st m name envelope) := by
  rw [decode_eq]
  refine (keeps_lift _).bind fun f => (keeps_lift _).bind fun f => ?_
  refine Keeps.bind ?_ fun events => keeps_decodeRest h envelope f events
  cases hon : envelope.member "on" with
  | none => exact keeps_pure _
  | some v =>
      cases v with
      | object o =>
          have hsize := sizeOf_member hon
          exact keeps_decodeHandlers h o fun _ => none
      | _ => exact keeps_throw _
termination_by sizeOf envelope
decreasing_by
  simp only [object.sizeOf_spec] at hsize
  omega

theorem keeps_decodeHandlers (h : Undisturbed sys m P) (o : List (String × Json D))
    (events : Event → Option (Job S)) : Keeps P (decodeHandlers sys st m o events) := by
  cases o with
  | nil =>
      rw [decodeHandlers]
      exact keeps_pure _
  | cons e rest =>
      obtain ⟨k, entry⟩ := e
      have hsize := sizeOf_nodeAt entry "envelope"
      rw [decodeHandlers]
      refine (keeps_lift _).bind fun node => (keeps_lift _).bind fun name => ?_
      refine (keeps_decode h name (nodeAt entry "envelope")).bind fun j => ?_
      exact keeps_decodeHandlers h rest _
termination_by sizeOf o
decreasing_by
  · simp only [List.cons.sizeOf_spec, Prod.mk.sizeOf_spec]
    omega
  · simp only [List.cons.sizeOf_spec, Prod.mk.sizeOf_spec]
    omega

end

end Decoding

section Runs

variable {sys : System D} {st : Statuses S D}

theorem undisturbed_consistent (m : Manager) : Undisturbed sys m (Consistent sys) where
  lookup := keeps_fileSchema m
  baseUri _ _ h := ⟨h.config, h.schema, h.tallied⟩

/-- The schema that is returned is the one in the cache. -/
theorem schemas_fileSchema {m : Manager} {schema : String} {s s' : Process D}
    {found : Option (Json.Tree D)} (h : outcome (fileSchema sys m schema) s = (.ok found, s')) :
    s'.schemas (m.schemaFile schema) = some found := by
  rw [fileSchema, outcome_answering] at h
  cases hcached : s.schemas (m.schemaFile schema) with
  | some cached =>
      rw [outcome_loadSchema_some hcached] at h
      cases h
      exact hcached
  | none =>
      rw [outcome_loadSchema_none hcached] at h
      obtain ⟨hfirst, hstate⟩ := Prod.mk.inj h
      rw [← hstate]
      simp only [Function.update_self]
      rw [firstSchema_of_ok hfirst]

theorem keeps_decodeText (m : Manager) (name : String) (text : Text) :
    Keeps (Consistent sys) (decodeText sys st m name text) := by
  rw [decodeText]
  refine (keeps_fileSchema m "job-envelope").bind_outcome fun s schema s' _ houtcome hs' => ?_
  have hcached := schemas_fileSchema houtcome
  have hrest : ∀ r : Except Failure Unit × Context D, Keeps (Consistent sys)
      ((liftM r.1 : Code (Process D) Failure Unit) >>= fun _ =>
        decode sys st m name r.2.json.root) := by
    intro r
    exact (keeps_lift _).bind fun _ => keeps_decode (undisturbed_consistent m) name _
  cases schema with
  | none => exact hrest _ s' hs'
  | some t => exact hrest _ _ (hs'.used hcached (.parse text))

theorem consistent_perform {s : Process D} (h : Consistent sys s) (access : Access D) :
    Consistent sys (access.perform sys st s) := by
  cases access with
  | config file => exact keeps_configFile file s h
  | schema m f => exact keeps_getSchema (keeps_fileSchema m) f s h
  | job m name envelope => exact keeps_decode (undisturbed_consistent m) name envelope s h
  | text m name envelope => exact keeps_decodeText m name envelope s h
  | use file how => exact keeps_useSchema file how s h

theorem consistent_performAll (accesses : List (Access D)) :
    Consistent sys (performAll sys st accesses) := by
  induction accesses using List.reverseRecOn with
  | nil => exact consistent_start
  | append_singleton accesses access ih =>
      rw [performAll, List.foldl_append]
      exact consistent_perform ih access

/-- In a run of a process, a file that cannot be parsed always makes the request fail, and
everything that is returned is complete, if and only if no file whose first load fails is asked
for twice. -/
theorem caches_sound_iff (accesses : List (Access D)) :
    (∀ a ∈ (performAll sys st accesses).answers, Sound sys a) ↔
      ∀ q, Broken sys q → ((performAll sys st accesses).answers.map query).count q ≤ 1 :=
  (consistent_performAll accesses).tallied

end Runs

section Samples

/-- Every file ends in the middle of an object. -/
def halfFiles : System ℤ where
  env := wholeNumbers
  file := fun _ => .text (.broken (.map [("x", .boolean true)]) 3)
  conf := fun _ => []
  serverRoot := "/"

/-- The second answer of each cache is the beginning of a file. -/
theorem not_caches_sound :
    (¬ ∀ a ∈ (performAll halfFiles noStatuses
      [.config "gearbox.conf", .config "gearbox.conf"]).answers, Sound halfFiles a) ∧
    ¬ ∀ a ∈ (performAll halfFiles noStatuses
      [.schema anyJob (nodeFields "get" "v1"),
        .schema anyJob (nodeFields "get" "v1")]).answers, Sound halfFiles a := by
  constructor
  · intro h
    have hsecond : (.config "gearbox.conf" (.ok (.object [("x", .bool true)])) : Answer ℤ) ∈
        (performAll halfFiles noStatuses
          [.config "gearbox.conf", .config "gearbox.conf"]).answers :=
      List.mem_cons_of_mem _ List.mem_cons_self
    obtain ⟨e, he⟩ := (h _ hsecond).1 rfl
    cases he
  · intro h
    have hsecond : (.schema (anyJob.schemaFile (schemaName (nodeFields "get" "v1")))
        (.ok (some (Tree.fresh (.object [("x", .bool true)])))) : Answer ℤ) ∈
        (performAll halfFiles noStatuses
          [.schema anyJob (nodeFields "get" "v1"),
            .schema anyJob (nodeFields "get" "v1")]).answers :=
      List.mem_cons_of_mem _ List.mem_cons_self
    obtain ⟨e, he⟩ := (h _ hsecond).1 nofun rfl
    cases he

end Samples

end Jobs

end Gearbox
