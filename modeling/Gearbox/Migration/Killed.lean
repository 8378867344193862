import Gearbox.Migration.History

/-!
# A setup that is killed

A setup gives two commands to the client for every patch: the patch itself and the row of the
version table. A setup that is killed between two patches can be repeated. If it is killed between
the two commands of a patch, then the tables are ahead of the version table. If a patch that has
already been applied fails, then no setup of this or a newer release ever changes the database
again.
-/

namespace Gearbox

namespace Migration

open Refinement Texts

namespace History

variable {σ : Type} {history : History σ} {client : Client σ} {base top v w n : ℕ}
  {db db' : Database σ} {release : Release}

/-- The commands of `upgrade_db` for one patch. -/
def upgradeCommands (history : History σ) (client : Client σ) (v : ℕ) :
    List (Code (Database σ) String Unit) :=
  [feed client (history.patch v) "upgrade failed",
    statement (·.insert v (undoenc (history.undo v))) "updating version failed"]

/-- The tables are ahead of the version table. -/
structure Torn (history : History σ) (base w : ℕ) (db : Database σ) : Prop where
  le : base ≤ w
  tables : db.tables = history.tables (w + 1)
  version : ∃ t, db.version = some t ∧ t.hasRevert = true ∧
    t.rows = (base, none) :: history.logged base w

/-- The commands of a patch are what the loop does for it. -/
theorem Ships.upgradeStep (h : history.Ships base n release) (hv : base < v) (hn : v ≤ n)
    (db : Database σ) :
    outcome (series (history.upgradeCommands client v)) db =
      outcome (Migration.upgradeStep client release v) db := by
  rw [Migration.upgradeStep, h.patch v hv hn, h.undo v hv hn, upgradeCommands, series]
  dsimp only
  rw [outcome_bind, outcome_bind]
  cases outcome (feed client (history.patch v) "upgrade failed") db with
  | mk r db' =>
      cases r with
      | error e => rfl
      | ok u =>
          dsimp only
          rw [series, series, outcome_bind]
          cases outcome (statement (·.insert v (undoenc (history.undo v)))
            "updating version failed") db' with
          | mk r db'' =>
              cases r with
              | error e => rfl
              | ok u => rfl

theorem Torn.getDbVersion (h : history.Torn base w db) : Migration.getDbVersion db = some w := by
  obtain ⟨t, ht, -, hrows⟩ := h.version
  rw [Migration.getDbVersion, ht]
  exact maxVersion_logged h.le hrows

/-- The patch fails if it has already been applied. -/
def Once (history : History σ) (client : Client σ) (w : ℕ) : Prop :=
  ∀ t, t.hasRevert = true →
    client.exec (history.patch (w + 1)) ⟨history.tables (w + 1), some t⟩ =
      (false, ⟨history.tables (w + 1), some t⟩)

/-- No setup of a release that is not older changes the database. -/
theorem Torn.setupDb (h : history.Torn base w db) (hpos : 0 < base)
    (honce : history.Once client w) (hships : history.Ships base n release) (hn : w ≤ n)
    (name : String) :
    outcome (Migration.setupDb client name release) db =
      (if w = n then .ok () else .error "upgrade failed", db) := by
  have hexists : checkDbExists db = true := by
    rw [checkDbExists, h.getDbVersion]
    exact decide_eq_true (Nat.lt_of_lt_of_le hpos h.le)
  rw [Migration.setupDb, outcome_bind_ok (outcome_get db), if_pos hexists, Migration.modifyDb,
    outcome_bind_ok (outcome_get db), h.getDbVersion, hships.lastver]
  dsimp only
  rcases Nat.eq_or_lt_of_le hn with rfl | hlt
  · rw [if_neg (Nat.lt_irrefl w), if_neg (Nat.lt_irrefl w), if_pos rfl]
    rfl
  · obtain ⟨m, rfl⟩ := Nat.exists_eq_add_of_lt hlt
    have hle := h.le
    have hseq : seq (w + 1) (w + m + 1) = (w + 1) :: List.range' (w + 2) m := by
      have hlength : w + m + 1 - w = m + 1 := by omega
      rw [seq_succ, hlength, List.range'_succ]
    have hfeed : outcome (feed client (history.patch (w + 1)) "upgrade failed") db =
        (.error "upgrade failed", db) := by
      obtain ⟨t, ht, hrevert, -⟩ := h.version
      have hexec := honce t hrevert
      rw [← h.tables, ← ht] at hexec
      exact outcome_feed_error hexec _
    have hstep : outcome (Migration.upgradeStep client release (w + 1)) db =
        (.error "upgrade failed", db) := by
      rw [← hships.upgradeStep (by omega) (by omega), upgradeCommands, series,
        outcome_bind_error hfeed]
    rw [if_pos hlt, if_neg (Nat.ne_of_lt hlt), Migration.upgradeDb, hseq,
      outcome_bind_error (outcome_each_error hstep _)]

end History

end Migration

end Gearbox
