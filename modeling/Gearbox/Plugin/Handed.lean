import Gearbox.Plugin.Objects

/-!
# What plugins are handed out

A program loads plugins and looks for the plugins of the types of statuses in any order, and the
disk may be another one at each call. What was handed out once is handed out again, and is never
freed. What a directory contains is a different matter: it is read at most once, and not at all
after one of its files was asked for.
-/

namespace Gearbox

namespace Plugin

open Refinement

/-- The tables agree with the objects, and what has a name is in a table. -/
structure Sound (w : World) : Prop where
  kept : Kept w
  opened : AllOpen w
  named : ∀ typeName p, w.statusPlugins typeName = some p → ∃ dir name, w.entry dir name = some p

/-- What a call leaves of the world before it; `own` is the entry that it adds to the table of its
directory. -/
structure Grows (dir : String) (own : Option (String × ℕ)) (w w' : World) : Prop where
  maps : ∀ dir', dir' ≠ dir → w'.pluginsMap dir' = w.pluginsMap dir'
  table : ∀ table, w.pluginsMap dir = some table → w'.pluginsMap dir = some table ∨
    ∃ name p, own = some (name, p) ∧ w'.pluginsMap dir = some (Assoc.insertKey name p table)
  heap : ∀ dir name p, w.entry dir name = some p → w'.heap p = w.heap p
  status : w.loaded = true → w'.loaded = true ∧ w'.statusPlugins = w.statusPlugins

/-- Statuses of a type are made by a plugin that has a constructor. -/
def Makes (w : World) (typestr : String) (i : Impl) : Prop :=
  w.loaded = true ∧ ∃ p plugin lib, i = .plugin p ∧ w.statusPlugins typestr = some p ∧
    w.heap p = some plugin ∧ plugin.getCtor = .ok lib

/-- The directory of a call. -/
def Call.dir : Call → String
  | .loadAll dir | .load dir _ | .find _ dir => dir
  | .newStatusImpl m | .newStatusCollectionImpl m => m.pluginDir

/-- What a call that returns has found. -/
def Answered (w : World) : Call → Answer → Prop
  | .loadAll dir, a => ∃ table, w.pluginsMap dir = some table ∧ a = .plugins (table.map Prod.snd)
  | .load dir name, a => ∃ p, w.entry dir name = some p ∧ a = .plugin p
  | .find typeName _, a => w.loaded = true ∧ a = .found (w.statusPlugins typeName)
  | .newStatusImpl m, a => ∃ i, a = .impl i ∧
      match m.type with
      | .plugin => Makes w m.typestr i
      | .transient => i = .transient
      | .job => i = .job
  | .newStatusCollectionImpl m, a => ∃ i, a = .impl i ∧ m.type = .plugin ∧ Makes w m.typestr i

section Calls

variable {w w' w'' : World} {dir name typeName ext : String} {disk : Disk} {p : ℕ}

theorem sound_empty : Sound {} where
  kept := ⟨nofun, nofun, nofun, nofun, fun _ _ => rfl⟩
  opened := nofun
  named := nofun

theorem grows_refl (dir : String) (w : World) : Grows dir none w w :=
  ⟨fun _ _ => rfl, fun _ h => .inl h, fun _ _ _ _ => rfl, fun h => ⟨h, rfl⟩⟩

theorem Sound.same (hs : Sound w) (h : Same dir w w') : Sound w' where
  kept := hs.kept.same h
  opened := hs.opened.same h
  named t p ht := by
    obtain ⟨d, n, hentry⟩ := hs.named t p (h.status ▸ ht)
    exact ⟨d, n, (h.entry d n).trans hentry⟩

theorem Same.grows (h : Same dir w w') : Grows dir none w w' where
  maps d hd := by
    rcases h.maps d with heq | ⟨rfl, -⟩
    · exact heq
    · exact absurd rfl hd
  table table htable := by
    rcases h.maps dir with heq | ⟨-, hnone, -⟩
    · exact .inl (heq.trans htable)
    · rw [hnone] at htable
      cases htable
  heap _ _ p _ := congrFun h.heap p
  status hloaded := ⟨h.loaded.trans hloaded, h.status⟩

theorem entry_of_none (hnone : w.pluginsMap dir = none) (name : String) :
    w.entry dir name = none := by
  rw [World.entry, hnone]
  rfl

/-- A directory that had no table may have any afterwards. -/
theorem Reading.grows (h : Reading dir w w') (hnone : w.pluginsMap dir = none) :
    Grows dir none w w' where
  maps := h.apart.maps
  table table htable := by
    rw [hnone] at htable
    cases htable
  heap d n p hentry := by
    refine h.apart.heap d n p ?_ hentry
    rintro rfl
    rw [entry_of_none hnone] at hentry
    cases hentry
  status hloaded := ⟨h.apart.loaded.trans hloaded, h.apart.status⟩

theorem Reading.sound (h : Reading dir w w') (hs : Sound w) (hnone : w.pluginsMap dir = none) :
    Sound w' where
  kept := h.kept
  opened := h.opened
  named t p ht := by
    obtain ⟨d, n, hentry⟩ := hs.named t p (h.apart.status ▸ ht)
    refine ⟨d, n, (entry_congr (h.apart.maps d ?_)).trans hentry⟩
    rintro rfl
    rw [entry_of_none hnone] at hentry
    cases hentry

theorem ensures_loadAll (hs : Sound w) :
    Ensures (fun ps w' => Sound w' ∧ Grows dir none w w' ∧ w'.loaded = w.loaded ∧
        ∃ table, w'.pluginsMap dir = some table ∧ ps = table.map Prod.snd)
      (fun e w' => e.IsException ∧ Sound w' ∧ Grows dir none w w')
      (outcome (loadAll ext disk dir) w) := by
  cases hmap : w.pluginsMap dir with
  | some table =>
      exact ensures_ok (outcome_loadAll_known ext disk hmap)
        ⟨hs, grows_refl _ w, rfl, table, hmap, rfl⟩
  | none =>
      refine (ensures_loadAll_new ext disk hs.kept hs.opened hmap).mono ?_ ?_
      · rintro ps w' ⟨h, htable⟩
        exact ⟨h.sound hs hmap, h.grows hmap, h.apart.loaded, htable⟩
      · rintro e w' ⟨he, h⟩
        exact ⟨he, h.sound hs hmap, h.grows hmap⟩

theorem Sound.added {plugin : PrivatePlugin} (hs : Sound w) (hnone : w.entry dir name = none)
    (hopen : plugin.dl.isSome) (hname : plugin.name = name) :
    Sound (w.added dir name plugin) where
  kept := hs.kept.added hnone hname
  opened := hs.opened.added hs.kept hnone hopen
  named t p ht := by
    obtain ⟨d, n, hentry⟩ := hs.named t p ht
    refine ⟨d, n, ?_⟩
    rw [entry_added hnone, if_neg, hentry]
    rintro ⟨rfl, rfl⟩
    rw [hnone] at hentry
    cases hentry

theorem grows_added {plugin : PrivatePlugin} (hs : Sound w)
    (hsame : Same dir (w.added dir name plugin) w') : Grows dir (some (name, w.next)) w w' where
  maps d hd := by
    rcases hsame.maps d with heq | ⟨rfl, -⟩
    · exact heq.trans (pluginsMap_added_of_ne hd)
    · exact absurd rfl hd
  table table htable := by
    have hmap := hsame.pluginsMap_added
    rw [World.table, htable] at hmap
    exact .inr ⟨name, w.next, rfl, hmap⟩
  heap d n p hentry := by
    rw [hsame.heap]
    exact heap_added_of_ne (hs.kept.ne_next hentry)
  status hloaded := ⟨hsame.loaded.trans hloaded, hsame.status⟩

theorem ensures_load (hs : Sound w) :
    Ensures (fun p w' => Sound w' ∧ w'.entry dir name = some p ∧
        (Grows dir none w w' ∨ Grows dir (some (name, p)) w w'))
      (fun e w' => e.IsException ∧ Sound w' ∧ Grows dir none w w')
      (outcome (load ext disk dir name) w) := by
  cases hentry : w.entry dir name with
  | some p =>
      exact ensures_ok (outcome_load_known ext disk hentry) ⟨hs, hentry, .inl (grows_refl _ w)⟩
  | none =>
      refine (ensures_load_new ext disk hs.kept hs.opened hentry).mono ?_ ?_
      · rintro p w' ⟨rfl, plugin, hopen, hname, hsame⟩
        exact ⟨(hs.added hentry hopen hname).same hsame,
          (hsame.entry dir name).trans (entry_added_self _ hentry), .inr (grows_added hs hsame)⟩
      · rintro e w' ⟨he, hsame, -⟩
        exact ⟨he, hs.same hsame, hsame.grows⟩

/-- Only names are added. -/
theorem ensures_nameAll {ps : List ℕ} (hs : Sound w)
    (hps : ∀ p ∈ ps, ∃ dir name, w.entry dir name = some p) :
    Ensures (fun _ w' => Sound w' ∧ ∃ names, w' = { w with statusPlugins := names })
      (fun e w' => e.IsException ∧ Sound w' ∧ ∃ names, w' = { w with statusPlugins := names })
      (outcome (nameAll ps) w) := by
  induction ps generalizing w with
  | nil => exact ensures_ok rfl ⟨hs, w.statusPlugins, rfl⟩
  | cons p ps ih =>
      obtain ⟨d, n, hentry⟩ := hps p List.mem_cons_self
      obtain ⟨plugin, hheap, -⟩ := hs.kept.alive d n p hentry
      rw [nameAll]
      refine Ensures.step (outcome_read hheap) (Ensures.call (fun lib _ => ?_) fun e he =>
        ⟨isException_getFunc he, hs, w.statusPlugins, rfl⟩)
      have hs' : Sound
          { w with statusPlugins := Function.update w.statusPlugins lib.typeName (some p) } := by
        refine ⟨⟨hs.kept.sorted, hs.kept.alive, hs.kept.unique, hs.kept.owned, hs.kept.bound⟩,
          hs.opened, fun t q ht => ?_⟩
        dsimp only at ht
        by_cases htype : t = lib.typeName
        · rw [htype, Function.update_self] at ht
          cases ht
          exact ⟨d, n, hentry⟩
        · rw [Function.update_of_ne htype] at ht
          exact hs.named t q ht
      refine Ensures.step (outcome_modify _ w) ((ih hs' ?_).mono ?_ ?_)
      · exact fun q hq => hps q (List.mem_cons_of_mem p hq)
      · rintro _ w' ⟨hs'', names, rfl⟩
        exact ⟨hs'', names, rfl⟩
      · rintro e w' ⟨he, hs'', names, rfl⟩
        exact ⟨he, hs'', names, rfl⟩

/-- The names may change as long as the table of them is not finished. -/
theorem Grows.renamed (h : Grows dir none w w') (hloaded : w.loaded = false)
    (names : String → Option ℕ) (b : Bool) :
    Grows dir none w { w' with statusPlugins := names, loaded := b } where
  maps := h.maps
  table := h.table
  heap := h.heap
  status htrue := by
    rw [hloaded] at htrue
    cases htrue

theorem ensures_statusLoadAll (hs : Sound w) :
    Ensures (fun _ w' => Sound w' ∧ Grows dir none w w' ∧ w'.loaded = true)
      (fun e w' => e.IsException ∧ Sound w' ∧ Grows dir none w w')
      (outcome (statusLoadAll ext disk dir) w) := by
  rw [statusLoadAll, outcome_bind_ok (outcome_get w)]
  cases hloaded : w.loaded with
  | true => exact ensures_ok rfl ⟨hs, grows_refl _ w, hloaded⟩
  | false =>
      refine (ensures_loadAll hs).bind ?_
      rintro ps w₁ ⟨hs₁, hgrows, -, table, htable, rfl⟩
      refine ((ensures_nameAll hs₁ fun p hp => ?_).weaken ?_).bind ?_
      · refine ⟨dir, (hs₁.kept.mem_table dir p).mp ?_⟩
        rwa [World.table, htable]
      · rintro e w' ⟨he, hs', names, rfl⟩
        exact ⟨he, hs', hgrows.renamed hloaded names _⟩
      · rintro _ w₂ ⟨hs₂, names, rfl⟩
        refine ensures_ok rfl
          ⟨⟨?_, hs₂.opened, hs₂.named⟩, hgrows.renamed hloaded names true, rfl⟩
        exact ⟨hs₂.kept.sorted, hs₂.kept.alive, hs₂.kept.unique, hs₂.kept.owned, hs₂.kept.bound⟩

/-- `find` builds the table of the names if it was not built before. -/
theorem ensures_find (hs : Sound w) :
    Ensures (fun o w' => Sound w' ∧ Grows dir none w w' ∧ w'.loaded = true ∧
        w'.statusPlugins typeName = o)
      (fun e w' => e.IsException ∧ Sound w' ∧ Grows dir none w w')
      (outcome (find ext disk typeName dir) w) := by
  rw [find]
  refine (ensures_statusLoadAll hs).bind ?_
  rintro _ w' ⟨hs', hgrows, hloaded⟩
  exact ensures_ok rfl ⟨hs', hgrows, hloaded, rfl⟩

theorem ensures_pluginImpl (hs : Sound w) (m : StatusManager) :
    Ensures (fun i w' => Sound w' ∧ Grows m.pluginDir none w w' ∧ Makes w' m.typestr i)
      (fun e w' => e.IsException ∧ Sound w' ∧ Grows m.pluginDir none w w')
      (outcome (pluginImpl ext disk m) w) := by
  rw [pluginImpl]
  refine (ensures_find hs).bind ?_
  rintro o w' ⟨hs', hgrows, hloaded, ho⟩
  cases o with
  | none => exact ensures_error rfl ⟨trivial, hs', hgrows⟩
  | some p =>
      obtain ⟨d, n, hentry⟩ := hs'.named m.typestr p ho
      obtain ⟨plugin, hheap, -⟩ := hs'.kept.alive d n p hentry
      refine Ensures.step (outcome_read hheap) (Ensures.call (fun lib hlib => ?_) fun e he =>
        ⟨isException_getFunc he, hs', hgrows⟩)
      exact ensures_ok rfl ⟨hs', hgrows, hloaded, p, plugin, lib, rfl, ho, hheap, hlib⟩

theorem ensures_perform (ext : String) (disk : Disk) (hs : Sound w) (c : Call) :
    Ensures (fun a w' => Sound w' ∧ Answered w' c a ∧
        (Grows c.dir none w w' ∨ ∃ dir name p, c = .load dir name ∧ a = .plugin p ∧
          Grows dir (some (name, p)) w w'))
      (fun e w' => e.IsException ∧ Sound w' ∧ Grows c.dir none w w')
      (outcome (perform ext disk c) w) := by
  cases c with
  | loadAll dir =>
      refine (ensures_loadAll hs).bind ?_
      rintro ps w' ⟨hs', hgrows, -, table, htable, hps⟩
      exact ensures_ok rfl ⟨hs', ⟨table, htable, congrArg _ hps⟩, .inl hgrows⟩
  | load dir name =>
      refine (ensures_load hs).bind ?_
      rintro p w' ⟨hs', hentry, hgrows⟩
      refine ensures_ok rfl ⟨hs', ⟨p, hentry, rfl⟩, hgrows.imp_right fun h => ?_⟩
      exact ⟨dir, name, p, rfl, rfl, h⟩
  | find typeName pluginDir =>
      refine (ensures_find hs).bind ?_
      rintro o w' ⟨hs', hgrows, hloaded, ho⟩
      exact ensures_ok rfl ⟨hs', ⟨hloaded, congrArg _ ho.symm⟩, .inl hgrows⟩
  | newStatusImpl m =>
      rw [perform, newStatusImpl]
      simp only [Answered]
      cases htype : m.type with
      | plugin =>
          refine (ensures_pluginImpl hs m).bind ?_
          rintro i w' ⟨hs', hgrows, hmakes⟩
          exact ensures_ok rfl ⟨hs', ⟨i, rfl, hmakes⟩, .inl hgrows⟩
      | transient => exact ensures_ok rfl ⟨hs, ⟨.transient, rfl, rfl⟩, .inl (grows_refl _ w)⟩
      | job => exact ensures_ok rfl ⟨hs, ⟨.job, rfl, rfl⟩, .inl (grows_refl _ w)⟩
  | newStatusCollectionImpl m =>
      rw [perform, newStatusCollectionImpl]
      cases htype : m.type with
      | plugin =>
          refine (ensures_pluginImpl hs m).bind ?_
          rintro i w' ⟨hs', hgrows, hmakes⟩
          exact ensures_ok rfl ⟨hs', ⟨i, rfl, htype, hmakes⟩, .inl hgrows⟩
      | transient => exact ensures_error rfl ⟨trivial, hs, grows_refl _ w⟩
      | job => exact ensures_error rfl ⟨trivial, hs, grows_refl _ w⟩

end Calls

/-- What stays of a world however the program goes on. -/
structure Persists (w w' : World) : Prop where
  tables : ∀ dir table, w.pluginsMap dir = some table →
    ∃ table', w'.pluginsMap dir = some table' ∧ table.Sublist table'
  entries : ∀ dir name p, w.entry dir name = some p →
    w'.entry dir name = some p ∧ w'.heap p = w.heap p
  status : w.loaded = true → w'.loaded = true ∧ w'.statusPlugins = w.statusPlugins

/-- The pointers of an answer. -/
def Answer.handed : Answer → List ℕ
  | .plugins ps => ps
  | .plugin p => [p]
  | .found o => o.toList
  | .impl (.plugin p) => [p]
  | .impl _ => []

/-- The call with another plugin path in the configuration. -/
def Call.elsewhere (pluginDir : String) : Call → Call
  | .loadAll dir => .loadAll dir
  | .load dir name => .load dir name
  | .find typeName _ => .find typeName pluginDir
  | .newStatusImpl m => .newStatusImpl { m with pluginDir := pluginDir }
  | .newStatusCollectionImpl m => .newStatusCollectionImpl { m with pluginDir := pluginDir }

/-- One of the calls is a `load` that returns this. -/
def Returned (ext : String) (calls : List (Disk × Call)) (w : World) (dir name : String) (p : ℕ) :
    Prop :=
  ∃ pre disk post, calls = pre ++ (disk, .load dir name) :: post ∧
    (outcome (perform ext disk (.load dir name)) (run ext pre w)).1 = .ok (.plugin p)

section Runs

variable {w w' w'' : World} {dir name ext : String} {disk : Disk} {c : Call} {a : Answer}
  {calls : List (Disk × Call)} {table : List (String × ℕ)} {p : ℕ}

theorem persists_refl (w : World) : Persists w w :=
  ⟨fun _ table h => ⟨table, h, List.Sublist.refl table⟩, fun _ _ _ h => ⟨h, rfl⟩,
    fun h => ⟨h, rfl⟩⟩

theorem Persists.trans (h : Persists w w') (h' : Persists w' w'') : Persists w w'' where
  tables dir table htable := by
    obtain ⟨table', htable', hsub⟩ := h.tables dir table htable
    obtain ⟨table'', htable'', hsub'⟩ := h'.tables dir table' htable'
    exact ⟨table'', htable'', hsub.trans hsub'⟩
  entries dir name p hentry := by
    obtain ⟨hentry', hheap⟩ := h.entries dir name p hentry
    obtain ⟨hentry'', hheap'⟩ := h'.entries dir name p hentry'
    exact ⟨hentry'', hheap'.trans hheap⟩
  status hloaded := by
    obtain ⟨hloaded', hstatus⟩ := h.status hloaded
    obtain ⟨hloaded'', hstatus'⟩ := h'.status hloaded'
    exact ⟨hloaded'', hstatus'.trans hstatus⟩

theorem Grows.tables {own : Option (String × ℕ)} (h : Grows dir own w w') {dir' : String}
    (htable : w.pluginsMap dir' = some table) : w'.pluginsMap dir' = some table ∨
      dir' = dir ∧ ∃ name p, own = some (name, p) ∧
        w'.pluginsMap dir' = some (Assoc.insertKey name p table) := by
  by_cases hd : dir' = dir
  · subst hd
    exact (h.table table htable).imp_right fun hown => ⟨rfl, hown⟩
  · exact .inl ((h.maps dir' hd).trans htable)

theorem Grows.persists {own : Option (String × ℕ)} (h : Grows dir own w w') (hs : Sound w)
    (hs' : Sound w') : Persists w w' := by
  have htables : ∀ d table, w.pluginsMap d = some table →
      ∃ table', w'.pluginsMap d = some table' ∧ table.Sublist table' := by
    intro d table htable
    rcases h.tables htable with hsame | ⟨-, name, p, -, hinsert⟩
    · exact ⟨table, hsame, List.Sublist.refl table⟩
    · exact ⟨_, hinsert, Assoc.sublist_insertKey name p table⟩
  refine ⟨htables, fun d name p hentry => ⟨?_, h.heap d name p hentry⟩, h.status⟩
  obtain ⟨table', htable', hsub⟩ := htables d _ (pluginsMap_of_entry hentry)
  have hmem : (name, p) ∈ w.table d :=
    (Assoc.mem_iff_lookup (hs.kept.sorted_table d)).mpr (entry_eq_lookup.symm.trans hentry)
  rw [World.entry, htable', Option.bind_some]
  exact (Assoc.mem_iff_lookup (hs'.kept.sorted d table' htable')).mp (hsub.subset hmem)

theorem persists_perform (ext : String) (disk : Disk) (c : Call) (hs : Sound w) :
    Sound (outcome (perform ext disk c) w).2 ∧
      Persists w (outcome (perform ext disk c) w).2 := by
  have hens := ensures_perform ext disk hs c
  cases hrun : outcome (perform ext disk c) w with
  | mk r w' =>
      cases r with
      | error e =>
          obtain ⟨-, hs', hgrows⟩ := hens.2 e w' hrun
          exact ⟨hs', hgrows.persists hs hs'⟩
      | ok a =>
          obtain ⟨hs', -, hgrows⟩ := hens.1 a w' hrun
          refine ⟨hs', ?_⟩
          rcases hgrows with hgrows | ⟨d, n, p, -, -, hgrows⟩
          · exact hgrows.persists hs hs'
          · exact hgrows.persists hs hs'

theorem persists_run (ext : String) (calls : List (Disk × Call)) (hs : Sound w) :
    Sound (run ext calls w) ∧ Persists w (run ext calls w) := by
  induction calls generalizing w with
  | nil => exact ⟨hs, persists_refl w⟩
  | cons x calls ih =>
      obtain ⟨hs₁, hp₁⟩ := persists_perform ext x.1 x.2 hs
      obtain ⟨hs', hp'⟩ := ih hs₁
      exact ⟨hs', hp₁.trans hp'⟩

/-- Only `load` adds to the table of a directory, and it returns what it adds. -/
theorem table_perform (ext : String) (disk : Disk) (c : Call) (hs : Sound w)
    (htable : w.pluginsMap dir = some table) :
    ∃ table', (outcome (perform ext disk c) w).2.pluginsMap dir = some table' ∧
      table.Sublist table' ∧ ∀ e ∈ table', e ∈ table ∨
        c = .load dir e.1 ∧ (outcome (perform ext disk c) w).1 = .ok (.plugin e.2) := by
  have hens := ensures_perform ext disk hs c
  have hsame : ∀ d w', Grows d none w w' → w'.pluginsMap dir = some table := by
    intro d w' hgrows
    rcases hgrows.tables htable with h | ⟨-, _, _, ⟨⟩, -⟩
    exact h
  cases hrun : outcome (perform ext disk c) w with
  | mk r w' =>
      cases r with
      | error e =>
          obtain ⟨-, -, hgrows⟩ := hens.2 e w' hrun
          exact ⟨table, hsame _ w' hgrows, List.Sublist.refl table, fun e he => .inl he⟩
      | ok a =>
          obtain ⟨-, -, hgrows | ⟨d, n, p, rfl, rfl, hgrows⟩⟩ := hens.1 a w' hrun
          · exact ⟨table, hsame _ w' hgrows, List.Sublist.refl table, fun e he => .inl he⟩
          · rcases hgrows.tables htable with h | ⟨rfl, name, q, hown, h⟩
            · exact ⟨table, h, List.Sublist.refl table, fun e he => .inl he⟩
            · cases hown
              refine ⟨_, h, Assoc.sublist_insertKey n p table, fun e he => ?_⟩
              rcases Assoc.mem_insertKey.mp he with rfl | hold
              · exact .inr ⟨rfl, rfl⟩
              · exact .inl hold

theorem Returned.cons (h : Returned ext calls (outcome (perform ext disk c) w).2 dir name p) :
    Returned ext ((disk, c) :: calls) w dir name p := by
  obtain ⟨pre, disk', post, rfl, hret⟩ := h
  exact ⟨(disk, c) :: pre, disk', post, rfl, hret⟩

/-- What is added to the table of a directory is what `load` returns. -/
theorem table_run (ext : String) (calls : List (Disk × Call)) (hs : Sound w)
    (htable : w.pluginsMap dir = some table) :
    ∃ table', (run ext calls w).pluginsMap dir = some table' ∧ table.Sublist table' ∧
      ∀ e ∈ table', e ∈ table ∨ Returned ext calls w dir e.1 e.2 := by
  induction calls generalizing w table with
  | nil => exact ⟨table, htable, List.Sublist.refl table, fun e he => .inl he⟩
  | cons x calls ih =>
      obtain ⟨disk, c⟩ := x
      obtain ⟨table₁, htable₁, hsub₁, hnew₁⟩ := table_perform ext disk c hs htable
      obtain ⟨table', htable', hsub', hnew'⟩ := ih (persists_perform ext disk c hs).1 htable₁
      refine ⟨table', htable', hsub₁.trans hsub', fun e he => ?_⟩
      rcases hnew' e he with hold | hret
      · rcases hnew₁ e hold with hold | ⟨rfl, hret⟩
        · exact .inl hold
        · exact .inr ⟨[], disk, calls, rfl, hret⟩
      · exact .inr hret.cons

theorem Makes.persists {typestr : String} {i : Impl} (hm : Makes w typestr i) (hs : Sound w)
    (h : Persists w w') : Makes w' typestr i := by
  obtain ⟨hloaded, p, plugin, lib, rfl, hnamed, hheap, hctor⟩ := hm
  obtain ⟨hloaded', hstatus⟩ := h.status hloaded
  obtain ⟨d, n, hentry⟩ := hs.named typestr p hnamed
  refine ⟨hloaded', p, plugin, lib, rfl, ?_, ?_, hctor⟩
  · rw [hstatus, hnamed]
  · rw [(h.entries d n p hentry).2, hheap]

theorem outcome_find_loaded (ext : String) (disk : Disk) (typeName pluginDir : String)
    (h : w.loaded = true) :
    outcome (find ext disk typeName pluginDir) w = (.ok (w.statusPlugins typeName), w) := by
  have hload : outcome (statusLoadAll ext disk pluginDir) w = (.ok (), w) := by
    rw [statusLoadAll, outcome_bind_ok (outcome_get w), h]
    rfl
  rw [find, outcome_bind_ok hload]
  rfl

theorem outcome_pluginImpl_made {m : StatusManager} {i : Impl} (disk : Disk)
    (hm : Makes w m.typestr i) : outcome (pluginImpl ext disk m) w = (.ok i, w) := by
  obtain ⟨hloaded, p, plugin, lib, rfl, hnamed, hheap, hctor⟩ := hm
  rw [pluginImpl, outcome_bind_ok (outcome_find_loaded ext disk _ _ hloaded), hnamed]
  dsimp only
  rw [outcome_bind_ok (outcome_read hheap), hctor]
  rfl

/-- The assignment of a manager leaves the name of its type as it was. Statuses are then made by
the plugin of the copied manager only if both names have the same one. -/
theorem newStatusImpl_assign_iff {m copy : StatusManager} {i : Impl} (disk : Disk)
    (hcopy : copy.type = .plugin) (hm : Makes w copy.typestr i) :
    outcome (newStatusImpl ext disk (m.assign copy)) w = (.ok i, w) ↔
      w.statusPlugins m.typestr = w.statusPlugins copy.typestr := by
  have htype : (m.assign copy).type = .plugin := hcopy
  rw [newStatusImpl, htype]
  constructor
  · intro hrun
    obtain ⟨hloaded, p, -, -, rfl, hnamed, -⟩ := hm
    have hfind := outcome_find_loaded ext disk (m.assign copy).typestr
      (m.assign copy).pluginDir hloaded
    rw [hnamed]
    cases hname : w.statusPlugins m.typestr with
    | none =>
        have hnone : w.statusPlugins (m.assign copy).typestr = none := hname
        rw [pluginImpl, outcome_bind_ok hfind, hnone] at hrun
        cases hrun
    | some q =>
        have hsome : w.statusPlugins (m.assign copy).typestr = some q := hname
        rw [pluginImpl, outcome_bind_ok hfind, hsome] at hrun
        obtain ⟨_, w₁, -, hrun⟩ := exists_of_bind hrun
        obtain ⟨_, w₂, -, hrun⟩ := exists_of_bind hrun
        cases hrun
        rfl
  · intro heq
    obtain ⟨hloaded, p, plugin, lib, rfl, hnamed, hheap, hctor⟩ := hm
    exact outcome_pluginImpl_made disk
      ⟨hloaded, p, plugin, lib, rfl, heq.trans hnamed, hheap, hctor⟩

/-- After it has answered, a call that lists no directory gives this answer at any time. -/
theorem outcome_again (hs : Sound w) (h : Persists w w') (ha : Answered w c a)
    (hc : ∀ dir, c ≠ .loadAll dir) (disk : Disk) (pluginDir : String) :
    outcome (perform ext disk (c.elsewhere pluginDir)) w' = (.ok a, w') := by
  cases c with
  | loadAll dir => exact absurd rfl (hc dir)
  | load dir name =>
      obtain ⟨p, hentry, rfl⟩ := ha
      exact outcome_bind_ok (outcome_load_known ext disk (h.entries dir name p hentry).1)
  | find typeName _ =>
      obtain ⟨hloaded, rfl⟩ := ha
      obtain ⟨hloaded', hstatus⟩ := h.status hloaded
      rw [← hstatus]
      exact outcome_bind_ok (outcome_find_loaded ext disk typeName pluginDir hloaded')
  | newStatusImpl m =>
      obtain ⟨i, rfl, himpl⟩ := ha
      rw [Call.elsewhere, perform, newStatusImpl]
      cases htype : m.type with
      | plugin =>
          rw [htype] at himpl
          exact outcome_bind_ok (outcome_pluginImpl_made disk (himpl.persists hs h))
      | transient =>
          rw [htype] at himpl
          cases himpl
          rfl
      | job =>
          rw [htype] at himpl
          cases himpl
          rfl
  | newStatusCollectionImpl m =>
      obtain ⟨i, rfl, htype, hmakes⟩ := ha
      rw [Call.elsewhere, perform, newStatusCollectionImpl, htype]
      exact outcome_bind_ok (outcome_pluginImpl_made disk (hmakes.persists hs h))

theorem Makes.entry {typestr : String} {i : Impl} (hm : Makes w typestr i) (hs : Sound w)
    (hp : p ∈ (Answer.impl i).handed) : ∃ dir name, w.entry dir name = some p := by
  obtain ⟨-, q, -, -, rfl, hnamed, -⟩ := hm
  cases List.mem_singleton.mp hp
  exact hs.named typestr p hnamed

/-- What is handed out is in a table. -/
theorem entry_of_handed (hs : Sound w) (ha : Answered w c a) (hp : p ∈ a.handed) :
    ∃ dir name, w.entry dir name = some p := by
  cases c with
  | loadAll dir =>
      obtain ⟨table, htable, rfl⟩ := ha
      refine ⟨dir, (hs.kept.mem_table dir p).mp ?_⟩
      rwa [World.table, htable]
  | load dir name =>
      obtain ⟨q, hentry, rfl⟩ := ha
      cases List.mem_singleton.mp hp
      exact ⟨dir, name, hentry⟩
  | find typeName _ =>
      obtain ⟨-, rfl⟩ := ha
      exact hs.named typeName p (Option.mem_toList.mp hp)
  | newStatusImpl m =>
      obtain ⟨i, rfl, himpl⟩ := ha
      cases htype : m.type with
      | plugin =>
          rw [htype] at himpl
          exact himpl.entry hs hp
      | transient =>
          rw [htype] at himpl
          cases himpl
          cases hp
      | job =>
          rw [htype] at himpl
          cases himpl
          cases hp
  | newStatusCollectionImpl m =>
      obtain ⟨i, rfl, -, hmakes⟩ := ha
      exact hmakes.entry hs hp

/-- No call uses an object that is not there. What a call hands out stays alive and open, whatever
the program does afterwards, and the call gives the same answer at any later time, for a status
also with another plugin path. The list of a directory only grows, by what `load` returns. -/
theorem handed_run (ext : String) (before after : List (Disk × Call)) (disk : Disk) (c : Call) :
    (∀ e, (outcome (perform ext disk c) (run ext before {})).1 = .error e → e.IsException) ∧
      ∀ a w, outcome (perform ext disk c) (run ext before {}) = (.ok a, w) →
        (∀ p ∈ a.handed, ∃ plugin, plugin.dl.isSome ∧ w.heap p = some plugin ∧
          (run ext after w).heap p = some plugin) ∧
        ((∀ dir, c ≠ .loadAll dir) → ∀ disk' pluginDir,
          outcome (perform ext disk' (c.elsewhere pluginDir)) (run ext after w) =
            (.ok a, run ext after w)) ∧
        ∀ dir, c = .loadAll dir → ∀ disk', ∃ qs,
          outcome (perform ext disk' c) (run ext after w) =
            (.ok (.plugins qs), run ext after w) ∧ a.handed.Sublist qs ∧
          ∀ q ∈ qs, q ∈ a.handed ∨ ∃ name, Returned ext after w dir name q := by
  have hs := (persists_run ext before sound_empty).1
  obtain ⟨hok, herror⟩ := ensures_perform ext disk hs c
  refine ⟨fun e he => (herror e _ (Prod.ext he rfl)).1, fun a w hrun => ?_⟩
  obtain ⟨hs', hanswer, -⟩ := hok a w hrun
  obtain ⟨hs'', hp⟩ := persists_run ext after hs'
  refine ⟨fun p hhanded => ?_, fun hc disk' pluginDir => ?_, ?_⟩
  · obtain ⟨d, n, hentry⟩ := entry_of_handed hs' hanswer hhanded
    obtain ⟨plugin, hheap, -⟩ := hs'.kept.alive d n p hentry
    refine ⟨plugin, hs'.opened d n p plugin hentry hheap, hheap, ?_⟩
    rw [(hp.entries d n p hentry).2, hheap]
  · exact outcome_again hs' hp hanswer hc disk' pluginDir
  · rintro dir rfl disk'
    obtain ⟨table, htable, rfl⟩ := hanswer
    obtain ⟨table', htable', hsub, hnew⟩ := table_run ext after hs' htable
    refine ⟨table'.map Prod.snd, ?_, hsub.map _, fun q hq => ?_⟩
    · exact outcome_bind_ok (outcome_loadAll_known ext disk' htable')
    · obtain ⟨⟨name, _⟩, hmem, rfl⟩ := List.mem_map.mp hq
      rcases hnew _ hmem with hold | hret
      · exact .inl (List.mem_map_of_mem hold)
      · exact .inr ⟨name, hret⟩

/-- A directory with one plugin. -/
def onePlugin : Disk where
  isThere path := path = "/p" ∨ path = "/p/sql_status.so"
  entries _ := (["sql_status.so"], none)
  dlopen _ := .ok ⟨fun _ => none, "sql"⟩

def emptyDisk : Disk where
  isThere _ := false
  entries _ := ([], none)
  dlopen _ := .error "no such file"

theorem handed_run_sql : ∃ w,
    outcome (perform ".so" onePlugin (.find "sql" "/p")) {} = (.ok (.found (some 0)), w) ∧
      outcome (perform ".so" emptyDisk (.find "sql" "/q")) w = (.ok (.found (some 0)), w) := by
  have hrun : outcome (perform ".so" onePlugin (.find "sql" "/p")) {} = (.ok (.found (some 0)),
      (outcome (perform ".so" onePlugin (.find "sql" "/p")) {}).2) := Prod.ext rfl rfl
  have hagain := ((handed_run ".so" [] [] onePlugin (.find "sql" "/p")).2 _ _ hrun).2.1
  exact ⟨_, hrun, hagain nofun emptyDisk "/q"⟩

theorem run_append (calls calls' : List (Disk × Call)) (w : World) :
    run ext (calls ++ calls') w = run ext calls' (run ext calls w) := by
  induction calls generalizing w with
  | nil => rfl
  | cons x calls ih => exact ih _

/-- Calls on other directories leave the table of a directory alone. -/
theorem pluginsMap_run (hs : Sound w) (h : ∀ x ∈ calls, x.2.dir ≠ dir) :
    (run ext calls w).pluginsMap dir = w.pluginsMap dir := by
  induction calls generalizing w with
  | nil => rfl
  | cons x calls ih =>
      obtain ⟨disk, c⟩ := x
      have hdir : dir ≠ c.dir := (h _ List.mem_cons_self).symm
      have hens := ensures_perform ext disk hs c
      rw [run, ih (persists_perform ext disk c hs).1 fun x hx => h x (List.mem_cons_of_mem _ hx)]
      cases hrun : outcome (perform ext disk c) w with
      | mk r w' =>
          cases r with
          | error e => exact (hens.2 e w' hrun).2.2.maps dir hdir
          | ok a =>
              obtain ⟨-, -, hgrows | ⟨d, n, p, rfl, -, hgrows⟩⟩ := hens.1 a w' hrun
              · exact hgrows.maps dir hdir
              · exact hgrows.maps dir hdir

/-- The first call on a directory is a `load` of a file that is there. -/
theorem table_load (hs : Sound w) (hnone : w.pluginsMap dir = none)
    (hthere : disk.isThere (slash dir (name ++ ext)) ∨ disk.isThere (slash dir (name ++ ".so"))) :
    ∃ table, (outcome (perform ext disk (.load dir name)) w).2.pluginsMap dir = some table ∧
      ∀ e ∈ table, e.1 = name ∧
        (outcome (perform ext disk (.load dir name)) w).1 = .ok (.plugin e.2) := by
  have hens := ensures_load_new ext disk hs.kept hs.opened
    (entry_of_none hnone name)
  cases hrun : outcome (load ext disk dir name) w with
  | mk r w' =>
      cases r with
      | error e =>
          obtain ⟨-, hsame, hsome⟩ := hens.2 e w' hrun
          have hperform : outcome (perform ext disk (.load dir name)) w = (.error e, w') :=
            outcome_bind_error hrun
          have hnil : w'.pluginsMap dir = some [] := by
            rcases hsame.maps dir with heq | ⟨-, -, hnil⟩
            · have hsome' := hsome hthere
              rw [heq, hnone] at hsome'
              cases hsome'
            · exact hnil
          rw [hperform]
          exact ⟨[], hnil, nofun⟩
      | ok p =>
          obtain ⟨rfl, plugin, -, -, hsame⟩ := hens.1 p w' hrun
          have hperform : outcome (perform ext disk (.load dir name)) w =
              (.ok (.plugin w.next), w') := outcome_bind_ok hrun
          have htable : w'.pluginsMap dir = some [(name, w.next)] := by
            have hmap := hsame.pluginsMap_added
            rw [World.table, hnone] at hmap
            exact hmap
          rw [hperform]
          refine ⟨_, htable, fun e he => ?_⟩
          cases List.mem_singleton.mp he
          exact ⟨rfl, rfl⟩

/-- A directory is never read if the first call on it is a `load` of a file that is there, also of
one that cannot be opened. `loadAll` then lists what `load` returned, and nothing else. -/
theorem loadAll_after_load (before after : List (Disk × Call))
    (hbefore : ∀ x ∈ before, x.2.dir ≠ dir)
    (hthere : disk.isThere (slash dir (name ++ ext)) ∨ disk.isThere (slash dir (name ++ ".so")))
    (disk' : Disk) :
    ∃ qs w, run ext (before ++ (disk, .load dir name) :: after) {} = w ∧
      outcome (perform ext disk' (.loadAll dir)) w = (.ok (.plugins qs), w) ∧
      ∀ q ∈ qs, ∃ name',
        Returned ext (before ++ (disk, .load dir name) :: after) {} dir name' q := by
  have hs := (persists_run ext before sound_empty).1
  have hnone : (run ext before {}).pluginsMap dir = none := pluginsMap_run sound_empty hbefore
  obtain ⟨table, htable, hfirst⟩ := table_load hs hnone hthere
  obtain ⟨table', htable', -, hnew⟩ := table_run ext after
    (persists_perform ext disk (.load dir name) hs).1 htable
  refine ⟨table'.map Prod.snd, _, run_append before _ {}, ?_, fun q hq => ?_⟩
  · exact outcome_bind_ok (outcome_loadAll_known ext disk' htable')
  · obtain ⟨e, he, rfl⟩ := List.mem_map.mp hq
    rcases hnew e he with hold | ⟨pre, disk'', post, rfl, hret⟩
    · obtain ⟨hname, hret⟩ := hfirst e hold
      exact ⟨name, before, disk, after, rfl, hret⟩
    · refine ⟨e.1, before ++ (disk, .load dir name) :: pre, disk'', post, ?_, ?_⟩
      · rw [List.append_assoc]
        rfl
      · rw [run_append]
        exact hret

end Runs

/-- A directory with two files, of which the first one cannot be opened. -/
def brokenFile : Disk where
  isThere _ := true
  entries _ := (["a.so", "b.so"], none)
  dlopen file := if file = "/p/a.so" then .error "file too short" else .ok ⟨fun _ => none, "sql"⟩

theorem loadAll_after_load_broken :
    ∃ qs w, run ".so" [(brokenFile, .load "/p" "a")] {} = w ∧
      outcome (perform ".so" brokenFile (.loadAll "/p")) w = (.ok (.plugins qs), w) ∧
      ∀ q ∈ qs, ∃ name', Returned ".so" [(brokenFile, .load "/p" "a")] {} "/p" name' q :=
  loadAll_after_load [] [] (by simp) (.inl rfl) brokenFile

/-- The second file is not found, although it can be opened. -/
example : (outcome (perform ".so" brokenFile (.loadAll "/p"))
    (run ".so" [(brokenFile, .load "/p" "a")] {})).1 = .ok (.plugins []) := by rfl

end Plugin

end Gearbox
