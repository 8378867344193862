import Gearbox.Migration.Setup

/-!
# Setups of a sequence of releases

The history of a database says what its tables are at every version, and which scripts lead from
one version to the next one and back. A setup takes a database that stands at one version to the
version of its release, whatever the database has gone through before. What it needs to go back is
in the database. So after any sequence of setups, the tables depend on the last release only. They
are never older than the release that created the database, which has no script to go below it.
-/

namespace Gearbox

namespace Migration

open Refinement Texts

section Undo

theorem isWord_percent : isWord percent = false := rfl

/-- What is stored has no newlines and no zero bytes. -/
theorem ne_of_mem_escape {undo : Bytes} {b : UInt8} (h : b ∈ escape isWord undo) :
    b ≠ 0 ∧ b ≠ newline := by
  rcases mem_escape h with hword | rfl | ⟨n, hn, rfl⟩
  · constructor
    · rintro rfl
      cases hword
    · rintro rfl
      cases hword
  · decide
  · have hdigits : ∀ m : Fin 16, hexDigit m ≠ 0 ∧ hexDigit m ≠ newline := by decide
    exact hdigits ⟨n, hn⟩

theorem substituted_of_forall {output : Bytes} (h : ∀ b ∈ output, b ≠ 0 ∧ b ≠ newline) :
    substituted output = output := by
  have hfilter : output.filter (· ≠ 0) = output :=
    List.filter_eq_self.mpr fun b hb => decide_eq_true (h b hb).1
  rw [substituted, hfilter, List.rdropWhile_eq_self_iff]
  intro hnil hlast
  exact (h _ (List.getLast_mem hnil)).2 (of_decide_eq_true hlast)

/-- Newlines at the end do not matter. -/
theorem substituted_append_newline (output : Bytes) :
    substituted (output ++ [newline]) = substituted output := by
  have hnewline : [newline].filter (· ≠ 0) = [newline] := rfl
  rw [substituted, List.filter_append, hnewline, List.rdropWhile_concat_pos _ _ _ (by decide)]
  rfl

theorem undoenc_eq (undo : Bytes) : undoenc undo = escape isWord undo :=
  substituted_of_forall fun _ => ne_of_mem_escape

/-- What is read back of one stored script. -/
theorem unescape_echoWords (undo : Bytes) :
    unescape (echoWords [undoenc undo]) = undo ++ [newline] := by
  have hwords : [32].intercalate ([undoenc undo].filter (· ≠ [])) = undoenc undo := by
    by_cases hnil : undoenc undo = []
    · rw [hnil]
      rfl
    · have hfilter : [undoenc undo].filter (· ≠ []) = [undoenc undo] :=
        List.filter_cons_of_pos (decide_eq_true hnil)
      rw [hfilter, List.intercalate_singleton]
  have hnewline : unescape [newline] = [newline] := rfl
  rw [echoWords, hwords, undoenc_eq, unescape_escape_append isWord_percent, hnewline]

end Undo

section Table

namespace VersionTable

variable {t t' : VersionTable} {v : ℕ}

/-- The table with or without the column `revert`. -/
def shape (column : Bool) (t : VersionTable) : VersionTable :=
  if column then revertible t.rows else plain (t.rows.map Prod.fst)

@[simp] theorem hasRevert_shape (column : Bool) (t : VersionTable) :
    (t.shape column).hasRevert = column := by
  cases column with
  | false => rfl
  | true => rfl

theorem rows_shape (column : Bool) (t : VersionTable) :
    (t.shape column).rows = if column then t.rows else t.rows.map fun row => (row.1, none) := by
  cases column with
  | false => exact List.map_map
  | true => rfl

theorem rows_delete (v : ℕ) (t : VersionTable) :
    (t.delete v).rows = t.rows.filter (·.1 ≠ v) := by
  cases t with
  | plain versions =>
      rw [delete, rows, rows, List.filter_map]
      rfl
  | revertible rows => rfl

@[simp] theorem hasRevert_delete (v : ℕ) (t : VersionTable) :
    (t.delete v).hasRevert = t.hasRevert := by
  cases t with
  | plain versions => rfl
  | revertible rows => rfl

/-- A table with the column. -/
theorem eq_revertible (h : t.hasRevert = true) : t = revertible t.rows := by
  cases t with
  | plain versions => cases h
  | revertible rows => rfl

end VersionTable

/-- The row of a version, read back. -/
theorem getDbVersionUndo_of_filter {σ : Type} (client : Client σ) (tables : σ) {v : ℕ}
    {rows : List (ℕ × Option Bytes)} {undo : Bytes}
    (hrows : rows.filter (·.1 = v) = [(v, some (undoenc undo))]) :
    substituted (getDbVersionUndo client v ⟨tables, some (.revertible rows)⟩) =
      substituted undo := by
  have hfields : ([(v, some (undoenc undo))].map Prod.snd).map (field client.type) =
      [undoenc undo] := rfl
  rw [getDbVersionUndo, Option.bind_some, VersionTable.selectRevert, hrows]
  dsimp only [Option.getD_some]
  rw [hfields, unescape_echoWords, substituted_append_newline]

/-- What is stored with a new version is given to the client again, except for zero bytes and for
the newlines at the end. -/
theorem getDbVersionUndo_insert {σ : Type} (client : Client σ) (tables : σ) {v : ℕ}
    {t t' : VersionTable} (undo : Bytes) (hnew : v ∉ t.rows.map Prod.fst)
    (hinsert : t.insert v (undoenc undo) = some t') :
    substituted (getDbVersionUndo client v ⟨tables, some t'⟩) =
      (undo.filter (· ≠ 0)).rdropWhile (· = newline) := by
  cases t with
  | plain versions => cases hinsert
  | revertible rows =>
      cases hinsert
      refine getDbVersionUndo_of_filter client tables ?_
      have hnone : rows.filter (·.1 = v) = [] := by
        refine List.filter_eq_nil_iff.mpr fun row hrow hv => hnew ?_
        exact List.mem_map.mpr ⟨row, hrow, of_decide_eq_true hv⟩
      rw [List.filter_append, hnone, List.nil_append]
      exact List.filter_cons_of_pos (decide_eq_true rfl)

theorem getDbVersionUndo_insert_reverted :
    substituted (getDbVersionUndo ⟨.mysql, fun _ db => (true, db)⟩ 3
        ⟨(), some (.revertible [(2, none), (3, some (undoenc [68, 37, 50, 0, 255, 10, 10]))])⟩) =
      ([68, 37, 50, 0, 255, 10, 10].filter (· ≠ 0)).rdropWhile (· = newline) :=
  getDbVersionUndo_insert ⟨.mysql, fun _ db => (true, db)⟩ () (t := .revertible [(2, none)])
    [68, 37, 50, 0, 255, 10, 10] (by decide) rfl

end Table

/-- What the tables are at every version, and the scripts of all releases. -/
structure History (σ : Type) where
  empty : σ
  tables : ℕ → σ
  column : ℕ → Bool
  sql : ℕ → Bytes
  patch : ℕ → Bytes
  undo : ℕ → Bytes

namespace History

variable {σ : Type} (history : History σ) (client : Client σ) (base top : ℕ)

/-- The scripts of the history do what they are for, from the version `base` on and up to the
version `top`. A script that undoes a patch is not blank. -/
structure Sound : Prop where
  pos : 0 < base
  column : ∀ v, base < v → v ≤ top → history.column v = true
  create : client.exec (history.sql base) ⟨history.empty, none⟩ =
    (true, ⟨history.tables base,
      some ((VersionTable.revertible [(base, none)]).shape (history.column base))⟩)
  up : ∀ v t, base ≤ v → v < top → t.hasRevert = history.column v →
    client.exec (history.patch (v + 1)) ⟨history.tables v, some t⟩ =
      (true, ⟨history.tables (v + 1), some (t.shape true)⟩)
  down : ∀ v t, base ≤ v → v < top → t.hasRevert = true →
    client.exec (echo (substituted (history.undo (v + 1)))) ⟨history.tables (v + 1), some t⟩ =
      (true, ⟨history.tables v, some (t.shape (history.column v))⟩)
  undo : ∀ v, base < v → v ≤ top → substituted (history.undo v) ≠ []
  null : client.type = .mysql → ∀ db, client.exec (ascii "NULL" ++ [newline]) db = (false, db)

/-- The release has the version `n`, and all scripts for it. -/
structure Ships (n : ℕ) (release : Release) : Prop where
  lastver : release.lastver = some n
  patch : ∀ v, base < v → v ≤ n → release.files.patches.lookup v = some (history.patch v)
  undo : ∀ v, base < v → v ≤ n → release.files.undos.lookup v = some (history.undo v)

/-- The rows of the versions above the one that created the database. -/
def logged (v : ℕ) : List (ℕ × Option Bytes) :=
  (List.range' (base + 1) (v - base)).map fun w => (w, some (undoenc (history.undo w)))

/-- The database stands at the version. -/
structure Stands (v : ℕ) (db : Database σ) : Prop where
  le : base ≤ v
  tables : db.tables = history.tables v
  version : ∃ t, db.version = some t ∧ t.hasRevert = history.column v ∧
    t.rows = (base, none) :: history.logged base v

variable {history client base top} {db : Database σ} {v : ℕ}

section Rows

theorem logged_self : history.logged base base = [] := by
  rw [logged, Nat.sub_self]
  rfl

theorem logged_succ (h : base ≤ v) : history.logged base (v + 1) =
    history.logged base v ++ [(v + 1, some (undoenc (history.undo (v + 1))))] := by
  have hlast : base + 1 + 1 * (v - base) = v + 1 := by omega
  rw [logged, Nat.succ_sub h, List.range'_concat, List.map_append, hlast]
  rfl

theorem le_of_mem_logged {row : ℕ × Option Bytes} (h : row ∈ history.logged base v) :
    base < row.1 ∧ row.1 ≤ v := by
  obtain ⟨w, hw, rfl⟩ := List.mem_map.mp h
  have hrange := List.mem_range'_1.mp hw
  dsimp only
  omega

/-- The rows without the one of the last version. -/
theorem filter_logged_succ (h : base ≤ v) :
    ((base, none) :: history.logged base (v + 1)).filter (·.1 ≠ v + 1) =
      (base, none) :: history.logged base v := by
  have hkeep : ((base, none) :: history.logged base v).filter (·.1 ≠ v + 1) =
      (base, none) :: history.logged base v := by
    refine List.filter_eq_self.mpr fun row hrow => decide_eq_true ?_
    rcases List.mem_cons.mp hrow with rfl | hrow
    · dsimp only
      omega
    · have hle := le_of_mem_logged hrow
      omega
  have hdrop : [(v + 1, some (undoenc (history.undo (v + 1))))].filter (·.1 ≠ v + 1) = [] :=
    List.filter_cons_of_neg (by simp)
  rw [logged_succ h, ← List.cons_append, List.filter_append, hkeep, hdrop, List.append_nil]

/-- The row of the last version. -/
theorem filter_logged_last (h : base ≤ v) :
    ((base, none) :: history.logged base (v + 1)).filter (·.1 = v + 1) =
      [(v + 1, some (undoenc (history.undo (v + 1))))] := by
  have hdrop : ((base, none) :: history.logged base v).filter (·.1 = v + 1) = [] := by
    refine List.filter_eq_nil_iff.mpr fun row hrow hv => ?_
    have hv := of_decide_eq_true hv
    rcases List.mem_cons.mp hrow with rfl | hrow
    · dsimp only at hv
      omega
    · have hle := le_of_mem_logged hrow
      omega
  rw [logged_succ h, ← List.cons_append, List.filter_append, hdrop, List.nil_append]
  exact List.filter_cons_of_pos (by simp)

/-- The row of the version that created the database. -/
theorem filter_logged_base (v : ℕ) :
    ((base, none) :: history.logged base v).filter (·.1 = base) = [(base, none)] := by
  have hdrop : (history.logged base v).filter (·.1 = base) = [] := by
    refine List.filter_eq_nil_iff.mpr fun row hrow hv => ?_
    have hv := of_decide_eq_true hv
    have hle := le_of_mem_logged hrow
    omega
  rw [List.filter_cons_of_pos (by simp), hdrop]

end Rows

/-- The version of a table with these rows. -/
theorem maxVersion_logged {t : VersionTable} (hv : base ≤ v)
    (hrows : t.rows = (base, none) :: history.logged base v) : t.maxVersion = some v := by
  have hmem : v ∈ t.rows.map Prod.fst := by
    rw [hrows, List.map_cons, List.mem_cons]
    rcases Nat.eq_or_lt_of_le hv with rfl | hlt
    · exact Or.inl rfl
    · refine Or.inr ?_
      obtain ⟨w, rfl⟩ := Nat.exists_eq_add_of_lt hlt
      rw [logged_succ (Nat.le_add_right base w), List.map_append, List.mem_append]
      exact Or.inr List.mem_cons_self
  have hmax : ∀ w ∈ t.rows.map Prod.fst, w ≤ v := by
    intro w hw
    obtain ⟨row, hrow, rfl⟩ := List.mem_map.mp hw
    rw [hrows, List.mem_cons] at hrow
    rcases hrow with rfl | hrow
    · exact hv
    · exact (le_of_mem_logged hrow).2
  exact List.max?_eq_some_iff.mpr ⟨hmem, hmax⟩

/-- The version that is read. -/
theorem Stands.getDbVersion (h : history.Stands base v db) :
    Migration.getDbVersion db = some v := by
  obtain ⟨t, ht, -, hrows⟩ := h.version
  rw [Migration.getDbVersion, ht]
  exact maxVersion_logged h.le hrows

section Steps

variable {release : Release} {n : ℕ}

theorem outcome_feed_ok {script : Bytes} {db db' : Database σ}
    (h : client.exec script db = (true, db')) (message : String) :
    outcome (feed client script message) db = (.ok (), db') := by
  rw [feed, outcome_mk, h]
  rfl

theorem outcome_feed_error {script : Bytes} {db db' : Database σ}
    (h : client.exec script db = (false, db')) (message : String) :
    outcome (feed client script message) db = (.error message, db') := by
  rw [feed, outcome_mk, h]
  rfl

theorem outcome_statement {f : VersionTable → Option VersionTable} {t t' : VersionTable}
    (hdb : db.version = some t) (hf : f t = some t') (message : String) :
    outcome (statement f message) db = (.ok (), { db with version := some t' }) := by
  rw [statement, outcome_mk, hdb, Option.bind_some, hf]

/-- One patch. -/
theorem Sound.climbs (h : history.Sound client base top) (hships : history.Ships base n release)
    (hn : n ≤ top) :
    Climbs (history.Stands base) (upgradeStep client release) base n := by
  intro v db hv hlt hdb
  obtain ⟨t, ht, hcolumn, hrows⟩ := hdb.version
  have hup := h.up v t hv (Nat.lt_of_lt_of_le hlt hn) hcolumn
  rw [← hdb.tables, ← ht] at hup
  have hinsert : (t.shape true).insert (v + 1) (undoenc (history.undo (v + 1))) =
      some (.revertible (t.rows ++ [(v + 1, some (undoenc (history.undo (v + 1))))])) := rfl
  refine ⟨⟨history.tables (v + 1), some (.revertible
    (t.rows ++ [(v + 1, some (undoenc (history.undo (v + 1))))]))⟩, ?_, ?_⟩
  · rw [upgradeStep, hships.patch (v + 1) (by omega) hlt, hships.undo (v + 1) (by omega) hlt]
    dsimp only
    rw [outcome_bind_ok (outcome_feed_ok hup _), outcome_statement rfl hinsert]
  · refine ⟨Nat.le_succ_of_le hv, rfl, _, rfl, ?_, ?_⟩
    · exact (h.column (v + 1) (by omega) (by omega)).symm
    · rw [logged_succ hv, ← List.cons_append, ← hrows]
      rfl

/-- The stored script of the last version. -/
theorem Stands.getDbVersionUndo (h : history.Stands base (v + 1) db)
    (hcolumn : history.column (v + 1) = true) (hv : base ≤ v) (client : Client σ) :
    substituted (Migration.getDbVersionUndo client (v + 1) db) =
      substituted (history.undo (v + 1)) := by
  obtain ⟨t, ht, hrevert, hrows⟩ := h.version
  rw [hcolumn] at hrevert
  have hdb : db =
      ⟨db.tables, some (.revertible ((base, none) :: history.logged base (v + 1)))⟩ := by
    rw [← hrows, ← VersionTable.eq_revertible hrevert, ← ht]
  rw [hdb]
  exact getDbVersionUndo_of_filter client db.tables (filter_logged_last hv)

/-- One stored script. -/
theorem Sound.descends (h : history.Sound client base top) :
    Descends (history.Stands base) (downgradeStep client) base top := by
  intro v db hv hlt hdb
  obtain ⟨t, ht, hcolumn, hrows⟩ := hdb.version
  have hup : history.column (v + 1) = true := h.column (v + 1) (by omega) hlt
  have hundo : substituted (history.undo (v + 1)) ≠ [] := h.undo (v + 1) (by omega) hlt
  have hdown := h.down v t hv hlt (hcolumn.trans hup)
  rw [← hdb.tables, ← ht] at hdown
  refine ⟨⟨history.tables v, some ((t.shape (history.column v)).delete (v + 1))⟩, ?_, ?_⟩
  · rw [downgradeStep, outcome_bind_ok (outcome_get db), hdb.getDbVersionUndo hup hv,
      if_neg hundo, outcome_bind_ok (outcome_feed_ok hdown _)]
    rfl
  · refine ⟨hv, rfl, _, rfl, ?_, ?_⟩
    · rw [VersionTable.hasRevert_delete, VersionTable.hasRevert_shape]
    · rw [VersionTable.rows_delete, VersionTable.rows_shape]
      split
      · rw [hrows, filter_logged_succ hv]
      · rename_i hplain
        have hbase : v = base := by
          by_contra hne
          exact hplain (h.column v (by omega) (by omega))
        subst hbase
        have hblank : ((fun row : ℕ × Option Bytes => decide (row.1 ≠ v + 1)) ∘
            fun row : ℕ × Option Bytes => (row.1, none)) =
              fun row => decide (row.1 ≠ v + 1) := rfl
        rw [List.filter_map, hblank, hrows, filter_logged_succ hv, logged_self]
        rfl

/-- There is no script to go below the version that created the database. -/
theorem Sound.bottom (h : history.Sound client base top) :
    Bottom (history.Stands base) (downgradeStep client) base := by
  intro db hdb
  obtain ⟨t, ht, -, hrows⟩ := hdb.version
  rw [downgradeStep, outcome_bind_ok (outcome_get db), getDbVersionUndo, ht, Option.bind_some]
  have hnone : unescape (echoWords []) = [newline] := rfl
  have hblank : unescape (echoWords [[]]) = [newline] := rfl
  have hnil : substituted [newline] = [] := rfl
  cases t with
  | plain versions =>
      rw [VersionTable.selectRevert, Option.getD_none, List.map_nil, hnone, hnil, if_pos rfl]
      exact ⟨_, _, outcome_throw _ _, hdb⟩
  | revertible rows =>
      have hrows : rows = (base, none) :: history.logged base base := hrows
      rw [VersionTable.selectRevert, Option.getD_some, hrows, filter_logged_base]
      have hfields : ([(base, none)].map Prod.snd).map (field client.type) =
          [field client.type none] := rfl
      rw [hfields]
      cases htype : client.type with
      | sqlite3 =>
          have hfield : field .sqlite3 none = [] := rfl
          rw [hfield, hblank, hnil, if_pos rfl]
          exact ⟨_, _, outcome_throw _ _, hdb⟩
      | mysql =>
          have hfield : substituted (unescape (echoWords [field .mysql none])) =
              ascii "NULL" := by decide
          have hecho : echo (ascii "NULL") = ascii "NULL" ++ [newline] := by decide
          rw [hfield, if_neg (by decide), hecho]
          exact ⟨_, _, outcome_bind_error (outcome_feed_error (h.null htype db) _), hdb⟩

theorem Stands.verify (h : history.Stands base v db) :
    outcome (Migration.verify client v) db = (.ok (), db) := by
  rw [Migration.verify, outcome_bind_ok (outcome_get db), h.getDbVersion, if_pos rfl]
  rfl

theorem seq_succ (first last : ℕ) :
    seq (first + 1) last = List.range' (first + 1) (last - first) := by
  rw [seq, Nat.add_sub_add_right]

/-- A setup of a release that is newer than the database. -/
theorem Sound.upgradeDb (h : history.Sound client base top)
    (hships : history.Ships base n release) (hn : n ≤ top) (hv : v ≤ n)
    (hdb : history.Stands base v db) :
    ∃ db', outcome (Migration.upgradeDb client release v n) db = (.ok (), db') ∧
      history.Stands base n db' := by
  have hlevel : v + (n - v) = n := Nat.add_sub_cancel' hv
  obtain ⟨db', hloop, hdb'⟩ := (h.climbs hships hn).each hdb.le (Nat.le_of_eq hlevel) hdb
  rw [hlevel] at hdb'
  refine ⟨db', ?_, hdb'⟩
  rw [Migration.upgradeDb, seq_succ, outcome_bind_ok hloop, hdb'.verify]

/-- A setup of a release that is older than the database. -/
theorem Sound.downgradeDb (h : history.Sound client base top) (hv : v ≤ top) (hn : base ≤ n)
    (hnv : n ≤ v) (hdb : history.Stands base v db) :
    ∃ db', outcome (Migration.downgradeDb client v n) db = (.ok (), db') ∧
      history.Stands base n db' := by
  have hlevel : n + (v - n) = v := Nat.add_sub_cancel' hnv
  rw [← hlevel] at hdb
  obtain ⟨db', hloop, hdb'⟩ := h.descends.each hn (hlevel.symm ▸ hv) hdb
  refine ⟨db', ?_, hdb'⟩
  rw [Migration.downgradeDb, seq_succ, outcome_bind_ok hloop, hdb'.verify]

/-- A setup of a release that is older than the one that created the database. -/
theorem Sound.downgradeDb_below (h : history.Sound client base top) (hv : v ≤ top) (hn : n < base)
    (hdb : history.Stands base v db) :
    ∃ e db', outcome (Migration.downgradeDb client v n) db = (.error e, db') ∧
      history.Stands base base db' := by
  have hlevel : v = n + (v - n) := (Nat.add_sub_cancel' ((Nat.le_of_lt hn).trans hdb.le)).symm
  obtain ⟨e, db', hloop, hdb'⟩ := h.descends.each_bottom h.bottom hn hdb.le hlevel hv hdb
  refine ⟨e, db', ?_, hdb'⟩
  rw [Migration.downgradeDb, seq_succ, outcome_bind_error hloop]

theorem Sound.modifyDb (h : history.Sound client base top) (hships : history.Ships base n release)
    (hn : n ≤ top) (hv : v ≤ top) (hdb : history.Stands base v db) (name : String) :
    ∃ r db', outcome (Migration.modifyDb client name release) db = (r, db') ∧
      history.Stands base (max base n) db' ∧ (r = .ok () ↔ base ≤ n) := by
  rw [Migration.modifyDb, outcome_bind_ok (outcome_get db), hdb.getDbVersion, hships.lastver]
  dsimp only
  rcases Nat.lt_or_ge v n with hlt | hge
  · have hbase : base ≤ n := hdb.le.trans (Nat.le_of_lt hlt)
    obtain ⟨db', hrun, hdb'⟩ := h.upgradeDb hships hn (Nat.le_of_lt hlt) hdb
    rw [if_pos hlt, hrun, Nat.max_eq_right hbase]
    exact ⟨_, _, rfl, hdb', iff_of_true rfl hbase⟩
  · rw [if_neg (Nat.not_lt.mpr hge)]
    rcases Nat.lt_or_ge n base with hbelow | hbase
    · obtain ⟨e, db', hrun, hdb'⟩ := h.downgradeDb_below hv hbelow hdb
      rw [if_pos (Nat.lt_of_lt_of_le hbelow hdb.le), hrun, Nat.max_eq_left (Nat.le_of_lt hbelow)]
      refine ⟨_, _, rfl, hdb', iff_of_false ?_ (Nat.not_le.mpr hbelow)⟩
      rintro ⟨⟩
    · rw [Nat.max_eq_right hbase]
      split
      · obtain ⟨db', hrun, hdb'⟩ := h.downgradeDb hv hbase hge hdb
        rw [hrun]
        exact ⟨_, _, rfl, hdb', iff_of_true rfl hbase⟩
      · have heq : v = n := by omega
        subst heq
        exact ⟨_, _, rfl, hdb, iff_of_true rfl hbase⟩

/-- One setup. -/
theorem Sound.setupDb (h : history.Sound client base top) (hships : history.Ships base n release)
    (hn : n ≤ top) (hv : v ≤ top) (hdb : history.Stands base v db) (name : String) :
    ∃ r db', outcome (Migration.setupDb client name release) db = (r, db') ∧
      history.Stands base (max base n) db' ∧ (r = .ok () ↔ base ≤ n) := by
  have hpos : 0 < v := Nat.lt_of_lt_of_le h.pos hdb.le
  have hexists : checkDbExists db = true := by
    rw [checkDbExists, hdb.getDbVersion]
    exact decide_eq_true hpos
  rw [Migration.setupDb, outcome_bind_ok (outcome_get db), if_pos hexists]
  exact h.modifyDb hships hn hv hdb name

/-- The first setup. -/
theorem Sound.createDb (h : history.Sound client base top) (hsql : release.sql = history.sql base)
    (name : String) :
    ∃ db, outcome (Migration.setupDb client name release) ⟨history.empty, none⟩ = (.ok (), db) ∧
      history.Stands base base db := by
  have hexists : ¬ checkDbExists (⟨history.empty, none⟩ : Database σ) = true := by
    intro hexists
    cases hexists
  rw [Migration.setupDb, outcome_bind_ok (outcome_get _), if_neg hexists, Migration.createDb,
    hsql]
  refine ⟨_, outcome_feed_ok h.create _, Nat.le_refl base, rfl, _, rfl, ?_, ?_⟩
  · exact VersionTable.hasRevert_shape _ _
  · rw [VersionTable.rows_shape, logged_self]
    exact ite_self _

end Steps

end History

section Delay

/-- The columns of the table `jobs` of the delay database before version 3. -/
def jobsColumns : List String :=
  ["id", "name", "envelope", "time", "ctime"]

/-- The delay database from version 2 to version 3. -/
def delayHistory : History (List String) where
  empty := []
  tables v := if v = 3 then jobsColumns ++ ["status_name"] else jobsColumns
  column _ := true
  sql _ := ascii "CREATE TABLE version; CREATE TABLE jobs;\n"
  patch _ := ascii "ALTER table jobs ADD COLUMN status_name VARCHAR(64);\n"
  undo _ := ascii "ALTER TABLE jobscopy RENAME TO jobs;\n"

/-- A client that knows the scripts of the delay database. -/
def delayClient : Client (List String) where
  type := .mysql
  exec script db :=
    if script = delayHistory.sql 2 then (true, ⟨jobsColumns, some (.revertible [(2, none)])⟩)
    else if script = delayHistory.patch 3 then
      if db.tables.contains "status_name" then (false, db)
      else (true, { db with tables := db.tables ++ ["status_name"] })
    else if script = delayHistory.undo 3 then (true, { db with tables := jobsColumns })
    else (false, db)

theorem delayHistory_sound : delayHistory.Sound delayClient 2 3 where
  pos := by decide
  column _ _ _ := rfl
  create := by rfl
  up v t hv hlt ht := by
    have hv : v = 2 := by omega
    subst hv
    rw [VersionTable.eq_revertible ht]
    rfl
  down v t hv hlt ht := by
    have hv : v = 2 := by omega
    subst hv
    rw [VersionTable.eq_revertible ht]
    rfl
  undo _ _ _ := (by decide : substituted (delayHistory.undo 3) ≠ [])
  null _ db := by rfl

/-- The releases 2 and 3 of the delay database. -/
def delayRelease (n : ℕ) : Release where
  sql := delayHistory.sql 2
  path := "delay-migration"
  migration := some
    { patches := (List.range' 2 (n - 1)).map fun v => (v, delayHistory.patch v)
      undos := (List.range' 2 (n - 1)).map fun v => (v, delayHistory.undo v) }

theorem delayRelease_ships_two : delayHistory.Ships 2 2 (delayRelease 2) where
  lastver := by decide
  patch v hv hle := absurd hv (Nat.not_lt.mpr hle)
  undo v hv hle := absurd hv (Nat.not_lt.mpr hle)

theorem delayRelease_ships_three : delayHistory.Ships 2 3 (delayRelease 3) where
  lastver := by decide
  patch v hv hle := by
    have hv : v = 3 := by omega
    subst hv
    rfl
  undo v hv hle := by
    have hv : v = 3 := by omega
    subst hv
    rfl

end Delay

namespace History

variable {σ : Type} {history : History σ} {client : Client σ} {base top v : ℕ} {db : Database σ}

section Runs

/-- One setup after the other, whether they succeed or not. -/
def setups (client : Client σ) (name : String) (releases : List Release) (db : Database σ) :
    Database σ :=
  releases.foldl (fun db release => (outcome (setupDb client name release) db).2) db

theorem Sound.setups (h : history.Sound client base top) {releases : List (ℕ × Release)}
    (hships : ∀ r ∈ releases, r.1 ≤ top ∧ history.Ships base r.1 r.2) (hv : v ≤ top)
    (hdb : history.Stands base v db) (name : String) :
    ∃ w, w ≤ top ∧
      history.Stands base w (History.setups client name (releases.map Prod.snd) db) := by
  induction releases generalizing v db with
  | nil => exact ⟨v, hv, hdb⟩
  | cons r releases ih =>
      obtain ⟨hr, hship⟩ := hships r List.mem_cons_self
      obtain ⟨res, db', hrun, hdb', -⟩ := h.setupDb hship hr hv hdb name
      have hmax : max base r.1 ≤ top := Nat.max_le.mpr ⟨hdb.le.trans hv, hr⟩
      have hrest := ih (fun r' hr' => hships r' (List.mem_cons_of_mem r hr')) hmax hdb'
      rw [List.map_cons, History.setups, List.foldl_cons, hrun]
      exact hrest

/-- After any sequence of setups, the next one takes the database to the version of its release,
or to the version that created the database if this is newer. It fails in this case only. -/
theorem Sound.setupDb_setups (h : history.Sound client base top) (htop : base ≤ top)
    {first last : Release} (hfirst : first.sql = history.sql base)
    {releases : List (ℕ × Release)}
    (hships : ∀ r ∈ releases, r.1 ≤ top ∧ history.Ships base r.1 r.2) {n : ℕ} (hn : n ≤ top)
    (hlast : history.Ships base n last) (name : String) :
    ∃ r db', outcome (Migration.setupDb client name last)
        (History.setups client name (first :: releases.map Prod.snd) ⟨history.empty, none⟩) =
          (r, db') ∧
      db'.tables = history.tables (max base n) ∧
      Migration.getDbVersion db' = some (max base n) ∧ (r = .ok () ↔ base ≤ n) := by
  obtain ⟨db, hcreate, hdb⟩ := h.createDb hfirst name
  obtain ⟨w, hw, hstands⟩ := h.setups hships htop hdb name
  obtain ⟨r, db', hrun, hdb', hr⟩ := h.setupDb hlast hn hw hstands name
  rw [History.setups, List.foldl_cons, hcreate]
  exact ⟨r, db', hrun, hdb'.tables, hdb'.getDbVersion, hr⟩

theorem setupDb_setups_delay :
    ∃ r db', outcome (Migration.setupDb delayClient "delay" (delayRelease 2))
        (History.setups delayClient "delay"
          (delayRelease 2 :: [(3, delayRelease 3), (2, delayRelease 2), (3, delayRelease 3)].map
            Prod.snd) ⟨delayHistory.empty, none⟩) = (r, db') ∧
      db'.tables = delayHistory.tables (max 2 2) ∧
      Migration.getDbVersion db' = some (max 2 2) ∧ (r = .ok () ↔ 2 ≤ 2) := by
  refine delayHistory_sound.setupDb_setups (by decide) rfl ?_ (by decide)
    delayRelease_ships_two "delay"
  intro r hr
  rw [List.mem_cons, List.mem_cons, List.mem_singleton] at hr
  rcases hr with rfl | rfl | rfl
  · exact ⟨by decide, delayRelease_ships_three⟩
  · exact ⟨by decide, delayRelease_ships_two⟩
  · exact ⟨by decide, delayRelease_ships_three⟩

end Runs

end History

end Migration

end Gearbox
