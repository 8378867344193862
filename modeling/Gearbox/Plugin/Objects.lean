import Gearbox.Plugin.Cache
import Gearbox.Refinement.Ensures

/-!
# The objects of the plugins

The tables of the directories and the objects that are alive belong together: every entry has an
object of its own, and no other object is alive. Each operation keeps this. `Plugin::loadAll`
takes only objects away that it has made itself, since it reads a directory only when this has no
table. `Plugin::load` leaves everything as it was, but for an empty table, or adds one entry.
-/

namespace Gearbox

namespace Plugin

open Refinement

/-- The fault is an exception. -/
def Fault.IsException : Fault → Prop
  | .dangling _ | .null => False
  | .std _ | .internal _ => True

/-- Every entry has its own object, which is alive, and no other object is. -/
structure Kept (w : World) : Prop where
  sorted : ∀ dir table, w.pluginsMap dir = some table → Assoc.Sorted table
  alive : ∀ dir name p, w.entry dir name = some p → ∃ plugin, w.heap p = some plugin ∧
    plugin.name = name
  unique : ∀ dir name dir' name' p, w.entry dir name = some p → w.entry dir' name' = some p →
    dir = dir' ∧ name = name'
  owned : ∀ p plugin, w.heap p = some plugin → ∃ dir name, w.entry dir name = some p
  bound : ∀ p, w.next ≤ p → w.heap p = none

/-- The objects of the tables are open. -/
def AllOpen (w : World) : Prop :=
  ∀ dir name p plugin, w.entry dir name = some p → w.heap p = some plugin → plugin.dl.isSome

/-- Nothing changes but the table of a directory and its objects. -/
structure Apart (dir : String) (w w' : World) : Prop where
  maps : ∀ dir', dir' ≠ dir → w'.pluginsMap dir' = w.pluginsMap dir'
  heap : ∀ dir' name p, dir' ≠ dir → w.entry dir' name = some p → w'.heap p = w.heap p
  status : w'.statusPlugins = w.statusPlugins
  loaded : w'.loaded = w.loaded

/-- Nothing changes but the next address, and a directory without a table may get an empty one. -/
structure Same (dir : String) (w w' : World) : Prop where
  heap : w'.heap = w.heap
  next : w.next ≤ w'.next
  maps : ∀ dir', w'.pluginsMap dir' = w.pluginsMap dir' ∨
    dir' = dir ∧ w.pluginsMap dir' = none ∧ w'.pluginsMap dir' = some []
  status : w'.statusPlugins = w.statusPlugins
  loaded : w'.loaded = w.loaded

/-- The world with a new entry. -/
def World.added (w : World) (dir name : String) (plugin : PrivatePlugin) : World :=
  { w with
    heap := Function.update w.heap w.next (some plugin)
    next := w.next + 1
    pluginsMap := Function.update w.pluginsMap dir
      (some (Assoc.insertKey name w.next (w.table dir))) }

/-- The world without an entry and its object. -/
def World.withoutName (w : World) (dir name : String) (p : ℕ) : World :=
  { w with
    heap := Function.update w.heap p none
    pluginsMap := Function.update w.pluginsMap dir (some ((w.table dir).filter (·.1 ≠ name))) }

/-- The world without a directory and its objects. -/
def World.withoutDir (w : World) (dir : String) : World :=
  { w with
    heap := fun p => if p ∈ (w.table dir).map Prod.snd then none else w.heap p
    pluginsMap := Function.update w.pluginsMap dir none }

section Tables

variable {w w' w'' : World} {dir dir' name name' : String} {plugin : PrivatePlugin} {p : ℕ}

theorem entry_eq_lookup : w.entry dir name = (w.table dir).lookup name := by
  rw [World.entry, World.table]
  cases w.pluginsMap dir with
  | none => rfl
  | some table => rfl

theorem entry_congr (h : w'.pluginsMap dir = w.pluginsMap dir) :
    w'.entry dir name = w.entry dir name := by
  rw [World.entry, h, World.entry]

theorem pluginsMap_added (w : World) (dir name : String) (plugin : PrivatePlugin) :
    (w.added dir name plugin).pluginsMap dir =
      some (Assoc.insertKey name w.next (w.table dir)) :=
  Function.update_self _ _ _

theorem pluginsMap_added_of_ne (h : dir' ≠ dir) :
    (w.added dir name plugin).pluginsMap dir' = w.pluginsMap dir' :=
  Function.update_of_ne h _ _

theorem heap_added (w : World) (dir name : String) (plugin : PrivatePlugin) :
    (w.added dir name plugin).heap w.next = some plugin :=
  Function.update_self _ _ _

theorem heap_added_of_ne (h : p ≠ w.next) : (w.added dir name plugin).heap p = w.heap p :=
  Function.update_of_ne h _ _

theorem pluginsMap_withoutName (w : World) (dir name : String) (p : ℕ) :
    (w.withoutName dir name p).pluginsMap dir = some ((w.table dir).filter (·.1 ≠ name)) :=
  Function.update_self _ _ _

theorem pluginsMap_withoutName_of_ne (h : dir' ≠ dir) :
    (w.withoutName dir name p).pluginsMap dir' = w.pluginsMap dir' :=
  Function.update_of_ne h _ _

theorem entry_added (hnone : w.entry dir name = none) :
    (w.added dir name plugin).entry dir' name' =
      if dir' = dir ∧ name' = name then some w.next else w.entry dir' name' := by
  by_cases hdir : dir' = dir
  · subst hdir
    rw [World.entry, pluginsMap_added, Option.bind_some,
      Assoc.lookup_insertKey (entry_eq_lookup ▸ hnone), ← entry_eq_lookup]
    simp only [true_and]
  · rw [entry_congr (pluginsMap_added_of_ne hdir), if_neg fun h => hdir h.1]

theorem entry_added_self (plugin : PrivatePlugin) (hnone : w.entry dir name = none) :
    (w.added dir name plugin).entry dir name = some w.next := by
  rw [entry_added hnone, if_pos ⟨rfl, rfl⟩]

theorem table_added :
    (w.added dir name plugin).table dir = Assoc.insertKey name w.next (w.table dir) := by
  rw [World.table, pluginsMap_added]
  rfl

theorem entry_withoutName_iff (dir' name' : String) (q : ℕ) :
    (w.withoutName dir name p).entry dir' name' = some q ↔
      w.entry dir' name' = some q ∧ ¬ (dir' = dir ∧ name' = name) := by
  by_cases hdir : dir' = dir
  · subst hdir
    rw [World.entry, pluginsMap_withoutName, Option.bind_some, Assoc.lookup_filter_ne,
      ← entry_eq_lookup]
    by_cases hname : name' = name
    · simp [hname]
    · simp [hname]
  · rw [entry_congr (pluginsMap_withoutName_of_ne hdir)]
    exact ⟨fun h => ⟨h, fun hboth => hdir hboth.1⟩, And.left⟩

theorem entry_withoutDir_iff (dir' name : String) (q : ℕ) :
    (w.withoutDir dir).entry dir' name = some q ↔ w.entry dir' name = some q ∧ ¬ dir' = dir := by
  rw [World.entry, World.withoutDir]
  dsimp only
  by_cases hdir : dir' = dir
  · simp [hdir]
  · rw [Function.update_of_ne hdir]
    exact ⟨fun h => ⟨h, hdir⟩, And.left⟩

theorem Kept.sorted_table (hk : Kept w) (dir : String) : Assoc.Sorted (w.table dir) := by
  rw [World.table]
  cases h : w.pluginsMap dir with
  | none => exact Assoc.sorted_nil
  | some table => exact hk.sorted dir table h

theorem Kept.ne_next (hk : Kept w) (h : w.entry dir name = some p) : p ≠ w.next := by
  rintro rfl
  obtain ⟨plugin, hheap, -⟩ := hk.alive dir name _ h
  rw [hk.bound _ (Nat.le_refl _)] at hheap
  cases hheap

theorem Kept.added (hk : Kept w) (hnone : w.entry dir name = none) (hname : plugin.name = name) :
    Kept (w.added dir name plugin) where
  sorted dir' table htable := by
    by_cases hdir : dir' = dir
    · rw [hdir, pluginsMap_added] at htable
      cases htable
      exact Assoc.sorted_insertKey (hk.sorted_table dir) (entry_eq_lookup ▸ hnone)
    · rw [pluginsMap_added_of_ne hdir] at htable
      exact hk.sorted dir' table htable
  alive dir' name' p hentry := by
    rw [entry_added hnone] at hentry
    split at hentry
    · rename_i h
      cases hentry
      exact ⟨plugin, heap_added w dir name plugin, hname.trans h.2.symm⟩
    · obtain ⟨plugin', hheap, hname'⟩ := hk.alive _ _ _ hentry
      refine ⟨plugin', ?_, hname'⟩
      rw [heap_added_of_ne (hk.ne_next hentry), hheap]
  unique d n d' n' p h h' := by
    rw [entry_added hnone] at h h'
    split at h
    · rename_i hboth
      cases h
      split at h'
      · rename_i hboth'
        exact ⟨hboth.1.trans hboth'.1.symm, hboth.2.trans hboth'.2.symm⟩
      · exact absurd rfl (hk.ne_next h')
    · split at h'
      · cases h'
        exact absurd rfl (hk.ne_next h)
      · exact hk.unique d n d' n' p h h'
  owned p plugin' hheap := by
    by_cases hp : p = w.next
    · refine ⟨dir, name, ?_⟩
      rw [entry_added hnone, if_pos ⟨rfl, rfl⟩, hp]
    · rw [heap_added_of_ne hp] at hheap
      obtain ⟨d, n, hentry⟩ := hk.owned p plugin' hheap
      refine ⟨d, n, ?_⟩
      rw [entry_added hnone, if_neg, hentry]
      rintro ⟨rfl, rfl⟩
      rw [hnone] at hentry
      cases hentry
  bound p hp := by
    have hne : p ≠ w.next := Nat.ne_of_gt hp
    rw [heap_added_of_ne hne]
    exact hk.bound p (Nat.le_of_succ_le hp)

/-- The world without some of the entries and their objects. -/
theorem Kept.erase {gone : String → String → Prop} (hk : Kept w)
    (hsorted : ∀ dir table, w'.pluginsMap dir = some table → Assoc.Sorted table)
    (hentry : ∀ dir name p, w'.entry dir name = some p ↔
      w.entry dir name = some p ∧ ¬ gone dir name)
    (hgone : ∀ dir name p, w.entry dir name = some p → gone dir name → w'.heap p = none)
    (hstay : ∀ p, (∀ dir name, w.entry dir name = some p → ¬ gone dir name) →
      w'.heap p = w.heap p)
    (hnext : w'.next = w.next) : Kept w' where
  sorted := hsorted
  alive dir name p h := by
    obtain ⟨hold, hnot⟩ := (hentry dir name p).mp h
    rw [hstay p fun d n hdn => ?_]
    · exact hk.alive dir name p hold
    · obtain ⟨rfl, rfl⟩ := hk.unique dir name d n p hold hdn
      exact hnot
  unique d n d' n' p h h' :=
    hk.unique d n d' n' p ((hentry d n p).mp h).1 ((hentry d' n' p).mp h').1
  owned p plugin hheap := by
    have hall : ∀ dir name, w.entry dir name = some p → ¬ gone dir name := by
      intro dir name hold hg
      rw [hgone dir name p hold hg] at hheap
      cases hheap
    rw [hstay p hall] at hheap
    obtain ⟨dir, name, hold⟩ := hk.owned p plugin hheap
    exact ⟨dir, name, (hentry dir name p).mpr ⟨hold, hall dir name hold⟩⟩
  bound p hp := by
    rw [hnext] at hp
    rw [hstay p fun dir name hold => ?_]
    · exact hk.bound p hp
    · obtain ⟨plugin, hheap, -⟩ := hk.alive dir name p hold
      rw [hk.bound p hp] at hheap
      cases hheap

theorem Same.entry (hs : Same dir w w') (dir' name : String) :
    w'.entry dir' name = w.entry dir' name := by
  rcases hs.maps dir' with heq | ⟨-, hnone, hnil⟩
  · exact entry_congr heq
  · rw [World.entry, World.entry, hnone, hnil]
    rfl

theorem Kept.same (hk : Kept w) (hs : Same dir w w') : Kept w' where
  sorted d table htable := by
    rcases hs.maps d with heq | ⟨-, -, hnil⟩
    · exact hk.sorted d table (heq ▸ htable)
    · rw [hnil] at htable
      cases htable
      exact Assoc.sorted_nil
  alive dir name p h := by
    rw [hs.heap]
    exact hk.alive dir name p (hs.entry dir name ▸ h)
  unique d n d' n' p h h' :=
    hk.unique d n d' n' p (hs.entry d n ▸ h) (hs.entry d' n' ▸ h')
  owned p plugin hheap := by
    obtain ⟨dir, name, h⟩ := hk.owned p plugin (hs.heap ▸ hheap)
    exact ⟨dir, name, (hs.entry dir name).trans h⟩
  bound p hp := by
    rw [hs.heap]
    exact hk.bound p (Nat.le_trans hs.next hp)

/-- The objects are open if they were before. -/
theorem AllOpen.sub (ho : AllOpen w) (h : ∀ dir name p, w'.entry dir name = some p →
    w.entry dir name = some p ∧ w'.heap p = w.heap p) : AllOpen w' := by
  intro dir name p plugin hentry hheap
  obtain ⟨hold, heq⟩ := h dir name p hentry
  exact ho dir name p plugin hold (heq ▸ hheap)

theorem AllOpen.same (ho : AllOpen w) (hs : Same dir w w') : AllOpen w' :=
  ho.sub fun dir name _ h => ⟨(hs.entry dir name).symm.trans h, congrFun hs.heap _⟩

theorem AllOpen.added (ho : AllOpen w) (hk : Kept w) (hnone : w.entry dir name = none)
    (hopen : plugin.dl.isSome) : AllOpen (w.added dir name plugin) := by
  intro dir' name' p plugin' hentry hheap
  rw [entry_added hnone] at hentry
  split at hentry
  · cases hentry
    rw [heap_added] at hheap
    cases hheap
    exact hopen
  · rw [heap_added_of_ne (hk.ne_next hentry)] at hheap
    exact ho _ _ _ _ hentry hheap

theorem apart_refl (dir : String) (w : World) : Apart dir w w :=
  ⟨fun _ _ => rfl, fun _ _ _ _ _ => rfl, rfl, rfl⟩

theorem Apart.trans (h : Apart dir w w') (h' : Apart dir w' w'') : Apart dir w w'' where
  maps d hd := (h'.maps d hd).trans (h.maps d hd)
  heap d n p hd hentry := by
    rw [h'.heap d n p hd ((entry_congr (h.maps d hd)).trans hentry), h.heap d n p hd hentry]
  status := h'.status.trans h.status
  loaded := h'.loaded.trans h.loaded

theorem Kept.apart_added (hk : Kept w) (dir name : String) (plugin : PrivatePlugin) :
    Apart dir w (w.added dir name plugin) where
  maps _ hd := pluginsMap_added_of_ne hd
  heap _ _ _ _ hentry := heap_added_of_ne (hk.ne_next hentry)
  status := rfl
  loaded := rfl

/-- The table of the directory is not touched after the entry was added. -/
theorem Same.pluginsMap_added (hs : Same dir (w.added dir name plugin) w') :
    w'.pluginsMap dir = some (Assoc.insertKey name w.next (w.table dir)) := by
  rcases hs.maps dir with heq | ⟨-, hnone, -⟩
  · rw [heq, Plugin.pluginsMap_added]
  · rw [Plugin.pluginsMap_added] at hnone
    cases hnone

end Tables

section Operations

variable {w w' : World} {dir name : String} {plugin : PrivatePlugin} {p : ℕ}

theorem outcome_read (h : w.heap p = some plugin) :
    outcome (read p) w = (.ok plugin, w) := by
  rw [read, outcome_mk, h]

theorem outcome_alloc (plugin : PrivatePlugin) (w : World) :
    outcome (alloc plugin) w = (.ok w.next, { w with
      heap := Function.update w.heap w.next (some plugin), next := w.next + 1 }) := rfl

theorem outcome_free (h : w.heap p = some plugin) :
    outcome (free p) w = (.ok (), { w with heap := Function.update w.heap p none }) := by
  rw [free, outcome_bind_ok (outcome_read h)]
  rfl

theorem outcome_freeAll {ps : List ℕ} (hnodup : ps.Nodup) (h : ∀ p ∈ ps, (w.heap p).isSome) :
    outcome (freeAll ps) w =
      (.ok (), { w with heap := fun p => if p ∈ ps then none else w.heap p }) := by
  induction ps generalizing w with
  | nil => rfl
  | cons p ps ih =>
      obtain ⟨hp, hps⟩ := List.nodup_cons.mp hnodup
      obtain ⟨plugin, hheap⟩ := Option.isSome_iff_exists.mp (h p List.mem_cons_self)
      rw [freeAll, outcome_bind_ok (outcome_free hheap), ih hps]
      · congr 2
        funext q
        dsimp only
        by_cases hq : q = p
        · rw [hq, if_neg hp, Function.update_self, if_pos List.mem_cons_self]
        · simp only [Function.update_of_ne hq, List.mem_cons, hq, false_or]
      · intro q hq
        dsimp only
        rw [Function.update_of_ne (ne_of_mem_of_not_mem hq hp)]
        exact h q (List.mem_cons_of_mem p hq)

theorem outcome_lookup (h : w.entry dir name = some p) :
    outcome (lookup dir name) w = (.ok p, w) := by
  rw [lookup, outcome_bind_ok (outcome_get w), h]
  rfl

theorem outcome_setTable (dir : String) (table : Option (List (String × ℕ))) (w : World) :
    outcome (setTable dir table) w =
      (.ok (), { w with pluginsMap := Function.update w.pluginsMap dir table }) := rfl

theorem new_name (disk : Disk) (file name : String) :
    (PrivatePlugin.new disk file name).name = name := by
  rw [PrivatePlugin.new]
  split
  · rfl
  · rfl

theorem outcome_insert (hnone : w.entry dir name = none) (plugin : PrivatePlugin) :
    outcome (insert dir name plugin) w = (.ok (), w.added dir name plugin) := by
  rw [insert, outcome_bind_ok (outcome_alloc plugin w), outcome_bind_ok (outcome_get _)]
  rw [entry_eq_lookup] at hnone
  have htable : (World.table { w with
      heap := Function.update w.heap w.next (some plugin), next := w.next + 1 } dir).lookup name =
        none := hnone
  dsimp only
  rw [htable]
  rfl

theorem pluginsMap_of_entry (h : w.entry dir name = some p) :
    w.pluginsMap dir = some (w.table dir) := by
  rw [World.table]
  cases hmap : w.pluginsMap dir with
  | none =>
      rw [World.entry, hmap] at h
      cases h
  | some table => rfl

/-- The object of a name that is there already is deleted at once. -/
theorem outcome_insert_known (hk : Kept w) (hsome : w.entry dir name = some p)
    (plugin : PrivatePlugin) :
    outcome (insert dir name plugin) w = (.ok (), { w with next := w.next + 1 }) := by
  have htable : (World.table { w with
      heap := Function.update w.heap w.next (some plugin), next := w.next + 1 } dir).lookup name =
        some p := entry_eq_lookup.symm.trans hsome
  rw [insert, outcome_bind_ok (outcome_alloc plugin w), outcome_bind_ok (outcome_get _)]
  dsimp only
  rw [htable]
  dsimp only
  rw [outcome_bind_ok (outcome_setTable _ _ _)]
  refine (outcome_free (Function.update_self w.next (some plugin) w.heap)).trans ?_
  dsimp only
  rw [Function.update_idem, ← hk.bound w.next (Nat.le_refl _), Function.update_eq_self]
  have hmap : some (World.table { w with
      heap := Function.update w.heap w.next (some plugin), next := w.next + 1 } dir) =
        w.pluginsMap dir := (pluginsMap_of_entry hsome).symm
  rw [hmap, Function.update_eq_self]

theorem same_next (dir : String) (w : World) : Same dir w { w with next := w.next + 1 } :=
  ⟨rfl, Nat.le_succ _, fun _ => .inl rfl, rfl, rfl⟩

theorem outcome_eraseName (hentry : w.entry dir name = some p) (hheap : w.heap p = some plugin) :
    outcome (eraseName dir name) w = (.ok (), w.withoutName dir name p) := by
  rw [eraseName, outcome_bind_ok (outcome_lookup hentry), outcome_bind_ok (outcome_get w),
    outcome_bind_ok (outcome_setTable _ _ _)]
  exact outcome_free hheap

/-- An entry that is taken away again. -/
theorem outcome_eraseName_added (hk : Kept w) (hnone : w.entry dir name = none) :
    ∃ w', outcome (eraseName dir name) (w.added dir name plugin) = (.ok (), w') ∧ Same dir w w' ∧
      (w'.pluginsMap dir).isSome := by
  refine ⟨_, outcome_eraseName (entry_added_self _ hnone) (heap_added w dir name plugin),
    ⟨?_, Nat.le_succ _, fun dir' => ?_, rfl, rfl⟩, ?_⟩
  · rw [World.withoutName, World.added]
    dsimp only
    rw [Function.update_idem, ← hk.bound w.next (Nat.le_refl _), Function.update_eq_self]
  · rw [World.withoutName, table_added, Assoc.filter_insertKey (entry_eq_lookup ▸ hnone)]
    dsimp only [World.added]
    rw [Function.update_idem]
    by_cases hdir : dir' = dir
    · subst hdir
      rw [Function.update_self, World.table]
      cases hmap : w.pluginsMap dir' with
      | none => exact .inr ⟨rfl, rfl, rfl⟩
      | some table => exact .inl rfl
    · exact .inl (Function.update_of_ne hdir _ _)
  · rw [pluginsMap_withoutName]
    rfl

/-- A name less in a directory. -/
theorem Kept.eraseName (hk : Kept w) (ho : AllOpen w) (hentry : w.entry dir name = some p) :
    ∃ w', outcome (eraseName dir name) w = (.ok (), w') ∧ Kept w' ∧ AllOpen w' ∧
      Apart dir w w' ∧ (w'.pluginsMap dir).isSome := by
  obtain ⟨plugin, hheap, -⟩ := hk.alive dir name p hentry
  have hiff : ∀ d n q, (w.withoutName dir name p).entry d n = some q ↔
      w.entry d n = some q ∧ ¬ (d = dir ∧ n = name) := entry_withoutName_iff
  have hstay : ∀ d n q, w.entry d n = some q → ¬ (d = dir ∧ n = name) → q ≠ p := by
    rintro d n q hsome hnot rfl
    exact hnot (hk.unique d n dir name q hsome hentry)
  refine ⟨w.withoutName dir name p, outcome_eraseName hentry hheap, ?_, ?_, ?_, ?_⟩
  · refine hk.erase (fun d table htable => ?_) hiff ?_ ?_ rfl
    · by_cases hd : d = dir
      · rw [hd, pluginsMap_withoutName] at htable
        cases htable
        exact List.Pairwise.sublist (List.filter_sublist.map _) (hk.sorted_table dir)
      · rw [pluginsMap_withoutName_of_ne hd] at htable
        exact hk.sorted d table htable
    · rintro d n q hsome ⟨rfl, rfl⟩
      rw [hentry] at hsome
      cases hsome
      exact Function.update_self _ _ _
    · intro q hall
      refine Function.update_of_ne ?_ _ _
      rintro rfl
      exact hall dir name hentry ⟨rfl, rfl⟩
  · refine ho.sub fun d n q hsome => ?_
    obtain ⟨hold, hnot⟩ := (hiff d n q).mp hsome
    exact ⟨hold, Function.update_of_ne (hstay d n q hold hnot) _ _⟩
  · refine ⟨fun d hd => pluginsMap_withoutName_of_ne hd, fun d n q hd hsome => ?_, rfl, rfl⟩
    exact Function.update_of_ne (hstay d n q hsome fun h => hd h.1) _ _
  · rw [pluginsMap_withoutName]
    rfl

theorem Kept.mem_table (hk : Kept w) (dir : String) (p : ℕ) :
    p ∈ (w.table dir).map Prod.snd ↔ ∃ name, w.entry dir name = some p := by
  rw [List.mem_map]
  constructor
  · rintro ⟨⟨name, _⟩, hin, rfl⟩
    exact ⟨name, entry_eq_lookup.trans ((Assoc.mem_iff_lookup (hk.sorted_table dir)).mp hin)⟩
  · rintro ⟨name, hsome⟩
    exact ⟨(name, p), (Assoc.mem_iff_lookup (hk.sorted_table dir)).mpr
      (entry_eq_lookup.symm.trans hsome), rfl⟩

theorem Kept.nodup_table (hk : Kept w) (dir : String) : ((w.table dir).map Prod.snd).Nodup := by
  refine List.Nodup.map_on ?_ (List.Nodup.of_map Prod.fst (hk.sorted_table dir).nodup)
  rintro ⟨n, q⟩ hin ⟨n', q'⟩ hin' heq
  dsimp only at heq
  subst heq
  have hsome := (Assoc.mem_iff_lookup (hk.sorted_table dir)).mp hin
  have hsome' := (Assoc.mem_iff_lookup (hk.sorted_table dir)).mp hin'
  rw [← entry_eq_lookup] at hsome hsome'
  rw [(hk.unique dir n dir n' q hsome hsome').2]

theorem Kept.isSome_of_mem (hk : Kept w) (h : p ∈ (w.table dir).map Prod.snd) :
    (w.heap p).isSome := by
  obtain ⟨name, hsome⟩ := (hk.mem_table dir p).mp h
  obtain ⟨plugin, hheap, -⟩ := hk.alive dir name p hsome
  rw [hheap]
  rfl

/-- A directory less. -/
theorem Kept.eraseDir (hk : Kept w) (dir : String) :
    outcome (eraseDir dir) w = (.ok (), w.withoutDir dir) ∧ Kept (w.withoutDir dir) ∧
      Apart dir w (w.withoutDir dir) := by
  refine ⟨?_, hk.erase (fun d table htable => ?_) entry_withoutDir_iff ?_ ?_ rfl, ?_⟩
  · rw [Plugin.eraseDir, outcome_bind_ok (outcome_get w),
      outcome_bind_ok (outcome_setTable _ _ _)]
    exact outcome_freeAll (hk.nodup_table dir) fun p hp => hk.isSome_of_mem hp
  · rw [World.withoutDir] at htable
    dsimp only at htable
    by_cases hd : d = dir
    · rw [hd, Function.update_self] at htable
      cases htable
    · rw [Function.update_of_ne hd] at htable
      exact hk.sorted d table htable
  · rintro d n q hsome rfl
    exact if_pos ((hk.mem_table d q).mpr ⟨n, hsome⟩)
  · intro q hall
    refine if_neg fun hin => ?_
    obtain ⟨n, hsome⟩ := (hk.mem_table dir q).mp hin
    exact hall dir n hsome rfl
  · refine ⟨fun d hd => Function.update_of_ne hd _ _, fun d n q hd hsome => if_neg ?_, rfl, rfl⟩
    intro hin
    obtain ⟨n', hsome'⟩ := (hk.mem_table dir q).mp hin
    exact hd (hk.unique d n dir n' q hsome hsome').1

end Operations

section LoadAll

variable {w w' : World} {dir name : String} {plugin : PrivatePlugin} {p : ℕ}

/-- What a call that reads the directory keeps. -/
structure Reading (dir : String) (w w' : World) : Prop where
  kept : Kept w'
  opened : AllOpen w'
  apart : Apart dir w w'

theorem isException_getFunc {e : Fault} (h : plugin.getFunc name = .error e) : e.IsException := by
  rw [PrivatePlugin.getFunc] at h
  split at h
  · cases h
    trivial
  · split at h
    · cases h
      trivial
    · cases h

theorem isException_endsWith {file ext : String} {e : Fault} (h : endsWith file ext = .error e) :
    e.IsException := by
  rw [endsWith] at h
  split at h
  · cases h
    trivial
  · cases h

theorem isException_pluginName {ext file leaf : String} {e : Fault}
    (h : pluginName ext file leaf = .error e) : e.IsException := by
  rw [pluginName] at h
  cases hext : endsWith file ext with
  | error e' =>
      rw [hext] at h
      cases h
      exact isException_endsWith hext
  | ok b =>
      rw [hext, ok_bind] at h
      cases b with
      | true => cases h
      | false =>
          cases hso : endsWith file ".so" with
          | error e' =>
              rw [hso] at h
              cases h
              exact isException_endsWith hso
          | ok b =>
              rw [hso] at h
              cases b with
              | true => cases h
              | false => cases h

theorem ensures_checkCtor (hk : Kept w) (ho : AllOpen w) (hentry : w.entry dir name = some p) :
    Ensures (fun _ w' => Reading dir w w' ∧ (w'.pluginsMap dir).isSome) (fun _ _ => False)
      (outcome (checkCtor dir name) w) := by
  obtain ⟨plugin, hheap, -⟩ := hk.alive dir name p hentry
  have hsome : (w.pluginsMap dir).isSome := by
    rw [pluginsMap_of_entry hentry]
    rfl
  rw [checkCtor, outcome_tryCatch, outcome_bind_ok (outcome_lookup hentry),
    outcome_bind_ok (outcome_read hheap)]
  cases hctor : plugin.getCtor with
  | ok lib => exact ensures_ok rfl ⟨⟨hk, ho, apart_refl dir w⟩, hsome⟩
  | error e =>
      have hexception : e.IsException := isException_getFunc hctor
      obtain ⟨w', hrun, hk', ho', hapart, hsome'⟩ := hk.eraseName ho hentry
      cases e with
      | dangling p => exact hexception.elim
      | null => exact hexception.elim
      | std what => exact ensures_ok hrun ⟨⟨hk', ho', hapart⟩, hsome'⟩
      | internal message => exact ensures_ok hrun ⟨⟨hk', ho', hapart⟩, hsome'⟩

theorem ensures_scanFile (ext : String) (disk : Disk) (leaf : String) (hk : Kept w)
    (ho : AllOpen w) (hsome : (w.pluginsMap dir).isSome) :
    Ensures (fun _ w' => Reading dir w w' ∧ (w'.pluginsMap dir).isSome)
      (fun e w' => e.IsException ∧ Reading dir w w')
      (outcome (scanFile ext disk dir leaf) w) := by
  rw [scanFile]
  refine Ensures.call (fun o ho' => ?_) fun e he =>
    ⟨isException_pluginName he, hk, ho, apart_refl dir w⟩
  cases o with
  | none => exact ensures_ok rfl ⟨⟨hk, ho, apart_refl dir w⟩, hsome⟩
  | some name =>
      dsimp only
      cases hentry : w.entry dir name with
      | none =>
          have hadded := entry_added_self (.new disk (slash dir leaf) name) hentry
          refine Ensures.step (outcome_insert hentry _) (Ensures.step (outcome_lookup hadded)
            (Ensures.step (outcome_read (heap_added _ _ _ _)) ?_))
          have hk' := hk.added hentry (new_name disk (slash dir leaf) name)
          have hapart := hk.apart_added dir name (.new disk (slash dir leaf) name)
          cases hdl : (PrivatePlugin.new disk (slash dir leaf) name).dl with
          | none =>
              obtain ⟨hrun, hkept, herased⟩ := hk'.eraseDir dir
              refine Ensures.step hrun (ensures_error rfl ⟨trivial, hkept, ?_, ?_⟩)
              · refine ho.sub fun d n q h => ?_
                obtain ⟨hold, hd⟩ := (entry_withoutDir_iff d n q).mp h
                rw [entry_added hentry, if_neg fun hboth => hd hboth.1] at hold
                exact ⟨hold, (hapart.trans herased).heap d n q hd hold⟩
              · exact hapart.trans herased
          | some lib =>
              have hopen : (PrivatePlugin.new disk (slash dir leaf) name).dl.isSome := hdl ▸ rfl
              have ho' := ho.added hk hentry hopen
              refine (ensures_checkCtor hk' ho' hadded).mono ?_ fun _ _ => False.elim
              rintro _ w' ⟨h, hsome'⟩
              exact ⟨⟨h.kept, h.opened, hapart.trans h.apart⟩, hsome'⟩
      | some p =>
          have hk' := hk.same (same_next dir w)
          have ho' := ho.same (same_next dir w)
          obtain ⟨plugin, hheap, -⟩ := hk'.alive dir name p hentry
          refine Ensures.step (outcome_insert_known hk hentry _) (Ensures.step
            (outcome_lookup hentry) (Ensures.step (outcome_read hheap) ?_))
          rw [Option.isNone_eq_false_iff.mpr (ho' dir name p plugin hentry hheap)]
          refine (ensures_checkCtor hk' ho' hentry).mono ?_ fun _ _ => False.elim
          rintro _ w' ⟨h, hsome'⟩
          exact ⟨⟨h.kept, h.opened, h.apart.maps, h.apart.heap, h.apart.status, h.apart.loaded⟩,
            hsome'⟩

theorem ensures_scan (ext : String) (disk : Disk) (leaves : List String) (hk : Kept w)
    (ho : AllOpen w) (hsome : (w.pluginsMap dir).isSome) :
    Ensures (fun _ w' => Reading dir w w' ∧ (w'.pluginsMap dir).isSome)
      (fun e w' => e.IsException ∧ Reading dir w w')
      (outcome (scan ext disk dir leaves) w) := by
  induction leaves generalizing w with
  | nil => exact ensures_ok rfl ⟨⟨hk, ho, apart_refl dir w⟩, hsome⟩
  | cons leaf leaves ih =>
      rw [scan]
      refine (ensures_scanFile ext disk leaf hk ho hsome).bind ?_
      rintro _ w₁ ⟨h, hsome₁⟩
      refine (ih h.kept h.opened hsome₁).mono ?_ ?_
      · rintro _ w' ⟨h', hsome'⟩
        exact ⟨⟨h'.kept, h'.opened, h.apart.trans h'.apart⟩, hsome'⟩
      · rintro e w' ⟨he, h'⟩
        exact ⟨he, h'.kept, h'.opened, h.apart.trans h'.apart⟩

/-- The directory is read only if it has no table. -/
theorem outcome_loadAll_known {table : List (String × ℕ)} (ext : String) (disk : Disk)
    (h : w.pluginsMap dir = some table) :
    outcome (loadAll ext disk dir) w = (.ok (table.map Prod.snd), w) := by
  rw [loadAll, outcome_bind_ok (outcome_get w), h]
  have htable : w.table dir = table := by
    rw [World.table, h]
    rfl
  rw [← htable]
  rfl

theorem ensures_scanDir (ext : String) (disk : Disk) (hk : Kept w) (ho : AllOpen w)
    (hsome : (w.pluginsMap dir).isSome) :
    Ensures (fun _ w' => Reading dir w w' ∧ (w'.pluginsMap dir).isSome)
      (fun e w' => e.IsException ∧ Reading dir w w') (outcome (scanDir ext disk dir) w) := by
  rw [scanDir]
  refine (ensures_scan ext disk _ hk ho hsome).bind fun _ w' h => ?_
  cases (disk.entries dir).2 with
  | none => exact ensures_ok rfl h
  | some e => exact ensures_error rfl ⟨trivial, h.1⟩

/-- A directory without a table is read. -/
theorem ensures_loadAll_new (ext : String) (disk : Disk) (hk : Kept w) (ho : AllOpen w)
    (hnone : w.pluginsMap dir = none) :
    Ensures (fun ps w' => Reading dir w w' ∧
        ∃ table, w'.pluginsMap dir = some table ∧ ps = table.map Prod.snd)
      (fun e w' => e.IsException ∧ Reading dir w w')
      (outcome (loadAll ext disk dir) w) := by
  rw [loadAll, outcome_bind_ok (outcome_get w), hnone]
  have hsame : Same dir w
      { w with pluginsMap := Function.update w.pluginsMap dir (some []) } := by
    refine ⟨rfl, Nat.le_refl _, fun d => ?_, rfl, rfl⟩
    by_cases hd : d = dir
    · subst hd
      exact .inr ⟨rfl, hnone, Function.update_self _ _ _⟩
    · exact .inl (Function.update_of_ne hd _ _)
  have hapart : Apart dir w
      { w with pluginsMap := Function.update w.pluginsMap dir (some []) } :=
    ⟨fun d hd => Function.update_of_ne hd _ _, fun _ _ _ _ _ => rfl, rfl, rfl⟩
  refine Ensures.step (outcome_setTable dir (some []) w) ?_
  split
  · refine ((ensures_scanDir ext disk (hk.same hsame) (ho.same hsame) ?_).weaken ?_).bind ?_
    · dsimp only
      rw [Function.update_self]
      rfl
    · rintro e w' ⟨he, h⟩
      exact ⟨he, h.kept, h.opened, hapart.trans h.apart⟩
    · rintro _ w' ⟨h, hsome⟩
      obtain ⟨table, htable⟩ := Option.isSome_iff_exists.mp hsome
      refine ensures_ok rfl ⟨⟨h.kept, h.opened, hapart.trans h.apart⟩, table, htable, ?_⟩
      rw [World.table, htable]
      rfl
  · refine ensures_ok rfl ⟨⟨hk.same hsame, ho.same hsame, hapart⟩, [],
      Function.update_self _ _ _, ?_⟩
    rw [World.table]
    dsimp only
    rw [Function.update_self]
    rfl

end LoadAll

section Load

variable {w w' w'' : World} {dir name suffix ext : String} {disk : Disk} {p : ℕ}

theorem same_refl (dir : String) (w : World) : Same dir w w :=
  ⟨rfl, Nat.le_refl _, fun _ => .inl rfl, rfl, rfl⟩

theorem ensures_loadFile (hk : Kept w) (hnone : w.entry dir name = none) :
    Ensures (fun found w' => if found then ∃ plugin : PrivatePlugin, plugin.dl.isSome ∧
          plugin.name = name ∧ w' = w.added dir name plugin
        else w' = w ∧ disk.isThere (slash dir (name ++ suffix)) = false)
      (fun e w' => e.IsException ∧ Same dir w w' ∧ (w'.pluginsMap dir).isSome)
      (outcome (loadFile disk dir name suffix) w) := by
  rw [loadFile]
  dsimp only
  split
  · have hadded := entry_added_self (.new disk (slash dir (name ++ suffix)) name) hnone
    refine Ensures.step (outcome_insert hnone _) (Ensures.step (outcome_lookup hadded)
      (Ensures.step (outcome_read (heap_added _ _ _ _)) ?_))
    cases hdl : (PrivatePlugin.new disk (slash dir (name ++ suffix)) name).dl with
    | none =>
        obtain ⟨w', hrun, hsame, hsome⟩ := outcome_eraseName_added hk hnone
        exact Ensures.step hrun (ensures_error rfl ⟨trivial, hsame, hsome⟩)
    | some lib =>
        refine ensures_ok rfl ?_
        exact ⟨_, hdl ▸ rfl, new_name .., rfl⟩
  · rename_i hthere
    exact ensures_ok rfl ⟨rfl, Bool.eq_false_iff.mpr hthere⟩

theorem outcome_loadFile_known (disk : Disk) (suffix : String) (hk : Kept w) (ho : AllOpen w)
    (hentry : w.entry dir name = some p) :
    ∃ found w', outcome (loadFile disk dir name suffix) w = (.ok found, w') ∧ Same dir w w' := by
  rw [loadFile]
  dsimp only
  split
  · obtain ⟨plugin, hheap, -⟩ := hk.alive dir name p hentry
    refine ⟨true, { w with next := w.next + 1 }, ?_, same_next dir w⟩
    rw [outcome_bind_ok (outcome_insert_known hk hentry _),
      outcome_bind_ok (outcome_lookup (w := { w with next := w.next + 1 }) hentry),
      outcome_bind_ok (outcome_read (w := { w with next := w.next + 1 }) hheap),
      Option.isNone_eq_false_iff.mpr (ho dir name p plugin hentry hheap)]
    rfl
  · exact ⟨false, w, rfl, same_refl dir w⟩

theorem outcome_load_known (ext : String) (disk : Disk) (h : w.entry dir name = some p) :
    outcome (load ext disk dir name) w = (.ok p, w) := by
  rw [load, outcome_bind_ok (outcome_get w), h]
  exact outcome_lookup h

theorem ensures_load_new (ext : String) (disk : Disk) (hk : Kept w) (ho : AllOpen w)
    (hnone : w.entry dir name = none) :
    Ensures (fun p w' => p = w.next ∧ ∃ plugin : PrivatePlugin, plugin.dl.isSome ∧
        plugin.name = name ∧ Same dir (w.added dir name plugin) w')
      (fun e w' => e.IsException ∧ Same dir w w' ∧
        (disk.isThere (slash dir (name ++ ext)) ∨ disk.isThere (slash dir (name ++ ".so")) →
          (w'.pluginsMap dir).isSome))
      (outcome (load ext disk dir name) w) := by
  rw [load, outcome_bind_ok (outcome_get w), hnone]
  refine ((ensures_loadFile hk hnone).weaken ?_).bind ?_
  · rintro e w' ⟨he, hsame, hsome⟩
    exact ⟨he, hsame, fun _ => hsome⟩
  · intro found w₁ hfound
    cases found with
    | true =>
        obtain ⟨plugin, hopen, hname, rfl⟩ := hfound
        have hadded := entry_added_self plugin hnone
        obtain ⟨found', w₂, hrun, hsame⟩ := outcome_loadFile_known disk ".so"
          (hk.added hnone hname) (ho.added hk hnone hopen) hadded
        refine Ensures.step hrun (ensures_ok (outcome_lookup ?_)
          ⟨rfl, plugin, hopen, hname, hsame⟩)
        exact (hsame.entry dir name).trans hadded
    | false =>
        obtain ⟨rfl, hthere⟩ := hfound
        refine ((ensures_loadFile hk hnone).weaken ?_).bind ?_
        · rintro e w' ⟨he, hsame, hsome⟩
          exact ⟨he, hsame, fun _ => hsome⟩
        · intro found' w₂ hfound'
          cases found' with
          | true =>
              obtain ⟨plugin, hopen, hname, rfl⟩ := hfound'
              exact ensures_ok (outcome_lookup (entry_added_self _ hnone))
                ⟨rfl, plugin, hopen, hname, same_refl dir _⟩
          | false =>
              obtain ⟨rfl, hthere'⟩ := hfound'
              refine ensures_error rfl ⟨trivial, same_refl dir _, ?_⟩
              rw [hthere, hthere']
              rintro (h | h)
              · cases h
              · cases h

end Load

end Plugin

end Gearbox
