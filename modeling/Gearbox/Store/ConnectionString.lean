import Gearbox.Store.Connection
import Gearbox.Texts.Cut

/-!
# Configurations of a connection

A connection that is configured several times keeps the type of the first time and has everything
else of the last time, except for a port that is not positive, which leaves the port as it was. So
the connection string may be one for another kind of database than the configuration is.

The connection string is logged with the password hidden, where it is looked for from the left. A
password that is a part of the name of the database or of the user is therefore logged.
-/

namespace Gearbox

namespace Store

open Refinement Texts

section Source

/-- A field of the connection string, if it is not empty. -/
def field (name value : String) : List Char :=
  if value = "" then [] else (" " ++ name ++ "=").toList ++ value.toList

/-- The part of the connection string in front of the password. -/
def front (c : Connection) : List Char :=
  if c.type = "sqlite3" then "dbname=".toList ++ c.dbname.toList ++ " timeout=10".toList
  else "dbname=".toList ++ c.dbname.toList ++ " user=".toList ++ c.user.toList

/-- The part of the connection string behind the password. -/
def back (c : Connection) : List Char :=
  if c.type = "sqlite3" then []
  else field "host" c.host ++ field "port" c.port ++ field "unix_socket" c.sock

/-- `Connection::connection_string` -/
def connectionString (c : Connection) : List Char :=
  if c.type = "sqlite3" then front c
  else front c ++ field "password" c.pass ++ back c

/-- What `Connection::connection_string` logs. -/
def connsafe (c : Connection) : List Char :=
  if c.pass = "" then connectionString c
  else
    match cutAt c.pass.toList (connectionString c) with
    | some (before, after) => before ++ "<hidden>".toList ++ after
    | none => connectionString c

/-- The state after a run. -/
def after (accepts : ℕ → Bool) : List Event → World → World
  | [], w => w
  | .init cfg name :: events, w => after accepts events (dbInit cfg name w)
  | .call name :: events, w => after accepts events (outcome (getconn accepts name) w).2
  | .drop i :: events, w =>
    after accepts events { w with lost := Function.update w.lost i true }

end Source

section Hidden

variable {c : Connection}

/-- The password is hidden where it stands, unless it occurs before. If it is a part of the name of
the database or of the user, then it is logged. -/
theorem connsafe_password (htype : c.type ≠ "sqlite3") (hpass : c.pass ≠ "") :
    (¬ c.pass.toList <:+: front c ++ " password=".toList ++ c.pass.toList.dropLast →
      connsafe c = front c ++ " password=".toList ++ "<hidden>".toList ++ back c) ∧
    (c.pass.toList <:+: front c → " password=".toList ++ c.pass.toList <:+: connsafe c) := by
  have hnil : c.pass.toList ≠ [] := fun h => hpass (String.toList_eq_nil_iff.mp h)
  have hstring : connectionString c =
      front c ++ " password=".toList ++ (c.pass.toList ++ back c) := by
    rw [connectionString, if_neg htype, field, if_neg hpass, List.append_assoc, List.append_assoc,
      List.append_assoc]
    rfl
  rw [connsafe, if_neg hpass]
  constructor
  · intro hfirst
    rw [(cutAt_eq_some_iff hnil).mpr ⟨hstring, hfirst⟩]
  · intro hfront
    obtain ⟨before, after, hcut⟩ := cutAt_of_infix hnil hfront
    rw [hstring, List.append_assoc, cutAt_append_of_cutAt hcut]
    refine ⟨before ++ "<hidden>".toList ++ after, back c, ?_⟩
    dsimp only
    simp only [List.append_assoc]

theorem connsafe_password_status :
    (¬ "box".toList <:+: front { type := "mysql", user := "gearbox", pass := "box" } ++
        " password=".toList ++ "box".toList.dropLast →
      connsafe { type := "mysql", user := "gearbox", pass := "box" } =
        front { type := "mysql", user := "gearbox", pass := "box" } ++ " password=".toList ++
          "<hidden>".toList ++ back { type := "mysql", user := "gearbox", pass := "box" }) ∧
    ("box".toList <:+: front { type := "mysql", user := "gearbox", pass := "box" } →
      " password=".toList ++ "box".toList <:+:
        connsafe { type := "mysql", user := "gearbox", pass := "box" }) :=
  connsafe_password (c := { type := "mysql", user := "gearbox", pass := "box" }) (by decide)
    (by decide)

end Hidden

section Configurations

variable {accepts : ℕ → Bool} {w : World} {name : String} {events : List Event}
  {cfgs : List Config}

/-- The configurations of one name. -/
def configsOf (name : String) : List Event → List Config
  | [] => []
  | .init cfg cn :: events =>
    if connName cfg cn = name then cfg :: configsOf name events else configsOf name events
  | .call _ :: events => configsOf name events
  | .drop _ :: events => configsOf name events

/-- The last port that is positive. -/
def lastPort (cfgs : List Config) (port : String) : String :=
  cfgs.foldl (fun port cfg => if cfg.dbPort.getD 0 ≤ 0 then port else toString (cfg.dbPort.getD 0))
    port

/-- A connection apart from its session. -/
def settings (c : Connection) : Connection :=
  { c with sess := none }

/-- What a configuration makes of the settings. -/
def configured (c : Option Connection) (cfg : Config) : Option Connection :=
  some (configure cfg (c.getD { type := cfg.dbType.getD "mysql" }))

theorem settings_configure (cfg : Config) (c : Connection) :
    settings (configure cfg c) = configure cfg (settings c) := by
  rw [settings, configure, configure, setPort, setPort]
  split
  · rfl
  · rfl

theorem conns_dbInit (cfg : Config) (cn : String) (w : World) (name : String) :
    ((dbInit cfg cn w).conns name).map settings =
      if connName cfg cn = name then configured ((w.conns name).map settings) cfg
      else (w.conns name).map settings := by
  rw [dbInit, reg]
  dsimp only
  by_cases heq : connName cfg cn = name
  · subst heq
    rw [if_pos rfl, Function.update_self]
    cases hc : w.conns (connName cfg cn) with
    | some c =>
        dsimp only
        rw [hc]
        exact congrArg some (settings_configure cfg c)
    | none =>
        dsimp only
        rw [Function.update_self]
        exact congrArg some (settings_configure cfg _)
  · have hne : name ≠ connName cfg cn := fun h => heq h.symm
    rw [if_neg heq, Function.update_of_ne hne]
    cases w.conns (connName cfg cn) with
    | some c => rfl
    | none =>
        dsimp only
        rw [Function.update_of_ne hne]

theorem settings_setSess (other : String) (sess : Option ℕ) (w : World) (name : String) :
    ((setSess other sess w).conns name).map settings = (w.conns name).map settings := by
  rw [setSess]
  dsimp only
  by_cases heq : name = other
  · subst heq
    rw [Function.update_self, Option.map_map]
    rfl
  · rw [Function.update_of_ne heq]

/-- A call leaves the settings alone. -/
theorem settings_getconn (other : String) (w : World) (name : String) :
    (((outcome (getconn accepts other) w).2).conns name).map settings =
      (w.conns name).map settings := by
  cases hc : w.conns other with
  | none => rw [outcome_getconn_none accepts hc]
  | some c =>
      cases hsess : c.sess with
      | some i =>
          rw [outcome_getconn_some accepts hc hsess]
          split
          · exact settings_setSess other none _ name
          · rfl
      | none =>
          rw [outcome_getconn_closed accepts hc hsess]
          split
          · exact settings_setSess other _ _ name
          · rfl

theorem settings_after (accepts : ℕ → Bool) (name : String) (events : List Event) (w : World) :
    ((after accepts events w).conns name).map settings =
      (configsOf name events).foldl configured ((w.conns name).map settings) := by
  induction events generalizing w with
  | nil => rfl
  | cons ev events ih =>
      cases ev with
      | drop i => exact ih _
      | call other =>
          rw [after, ih, settings_getconn]
          rfl
      | init cfg cn =>
          rw [after, ih, conns_dbInit, configsOf]
          split
          · rfl
          · rfl

theorem type_configure (cfg : Config) (c : Connection) : (configure cfg c).type = c.type := by
  rw [configure, setPort]
  split
  · rfl
  · rfl

theorem port_configure (cfg : Config) (c : Connection) :
    (configure cfg c).port =
      if cfg.dbPort.getD 0 ≤ 0 then c.port else toString (cfg.dbPort.getD 0) := by
  rw [configure, setPort]
  split
  · rfl
  · rfl

theorem foldl_configured (cfgs : List Config) (c : Connection) :
    ∃ c', cfgs.foldl configured (some c) = some c' ∧ c'.type = c.type ∧
      c'.port = lastPort cfgs c.port := by
  induction cfgs generalizing c with
  | nil => exact ⟨c, rfl, rfl, rfl⟩
  | cons cfg cfgs ih =>
      obtain ⟨c', hfold, htype, hport⟩ := ih (configure cfg c)
      refine ⟨c', hfold, htype.trans (type_configure cfg c), ?_⟩
      rw [hport, port_configure]
      rfl

/-- The fields of the last configuration. -/
structure Carries (c : Connection) (cfg : Config) : Prop where
  user : c.user = cfg.dbUser.getD ""
  pass : c.pass = cfg.dbPass.getD ""
  dbname : c.dbname = cfg.dbName.getD ""
  host : c.host = cfg.dbHost.getD ""
  sock : c.sock = cfg.dbSock.getD ""

theorem carries_configure (cfg : Config) (c : Connection) : Carries (configure cfg c) cfg := by
  rw [configure, setPort]
  split
  · exact ⟨rfl, rfl, rfl, rfl, rfl⟩
  · exact ⟨rfl, rfl, rfl, rfl, rfl⟩

theorem carries_foldl {last : Config} {before : List Config} {c' : Connection}
    {o : Option Connection} (hfold : (before ++ [last]).foldl configured o = some c') :
    Carries c' last := by
  rw [List.foldl_append] at hfold
  cases hfold
  exact carries_configure last _

/-- A connection keeps the type of its first configuration. It has the last port that is positive,
and everything else of its last configuration. -/
theorem conns_after (accepts : ℕ → Bool) (events : List Event) (name : String) :
    (configsOf name events = [] → (after accepts events {}).conns name = none) ∧
    ∀ first rest before last, configsOf name events = first :: rest →
      configsOf name events = before ++ [last] →
        ∃ c, (after accepts events {}).conns name = some c ∧
          c.type = first.dbType.getD "mysql" ∧ c.port = lastPort (first :: rest) "" ∧
          Carries c last := by
  have hsettings := settings_after accepts name events {}
  constructor
  · intro hnone
    rw [hnone] at hsettings
    exact Option.map_eq_none_iff.mp hsettings
  · intro first rest before last hfirst hlast
    obtain ⟨c', hfold, htype, hport⟩ := foldl_configured rest
      (configure first { type := first.dbType.getD "mysql" })
    have hrun : (configsOf name events).foldl configured none = some c' := by
      rw [hfirst]
      exact hfold
    have hmap := hsettings.trans hrun
    obtain ⟨c, hc, rfl⟩ := Option.map_eq_some_iff.mp hmap
    have hcarries : Carries (settings c) last := carries_foldl (hlast ▸ hrun)
    refine ⟨c, hc, ?_, ?_, hcarries.user, hcarries.pass, hcarries.dbname, hcarries.host,
      hcarries.sock⟩
    · exact htype.trans (type_configure _ _)
    · refine hport.trans ?_
      rw [port_configure]
      rfl

end Configurations

end Store

end Gearbox
