import Gearbox.Json.Links

/-!
# The root of a schema

A parse leaves the schema cursor at the parent of the root of its schema. The functions of
a schema write parent pointers of nodes below the root only, so that the root has no parent
after a parse if it had none before.
-/

namespace Gearbox

namespace Json

open Refinement

variable {D : Type} {env : Env D}

/-- The root has no parent. -/
def Tree.Topmost (t : Tree D) : Prop :=
  t.parent [] = none

section Schema

variable {α : Type} {this : Path}

theorem keeps_topmost_of_tended {m : SchemaM D α}
    (h : ∀ t, Keeps (Tree.Tended this t) m) : Keeps Tree.Topmost m := by
  intro t ht
  have habove := (h t t (Tree.Tended.refl this t)).above [] (Nat.zero_le _)
  exact habove.trans ht

theorem topmost_load (p : Path) : Keeps Tree.Topmost (load p : SchemaM D (Json D)) := by
  have htended : ∀ t, Keeps (Tree.Tended [] t) (load p : SchemaM D (Json D)) :=
    fun _ => keeps_load p
  exact keeps_topmost_of_tended htended

theorem topmost_modify (p : Path) (f : Json D → Json D) :
    Keeps Tree.Topmost (update fun t => t.modify p f : SchemaM D Unit) :=
  fun _ h => h

theorem topmost_setParent {p : Path} (hp : p ≠ []) (q : Option Path) :
    Keeps Tree.Topmost (update fun t => t.setParent p q : SchemaM D Unit) :=
  fun _ h => (if_neg hp.symm).trans h

theorem topmost_getAdditionalProperties :
    Keeps Tree.Topmost (getAdditionalProperties env this) :=
  keeps_topmost_of_tended fun _ => keeps_getAdditionalProperties

/-- The end of `getChildSchema` where only additional properties are left. -/
theorem topmost_absent (addProp : Option Path) (r : Except Failure Bool) :
    Keeps Tree.Topmost
      (match addProp with
        | some p => return some p
        | none => do
          let _ ← r
          return none : SchemaM D (Option Path)) := by
  cases addProp with
  | some p => exact keeps_pure _
  | none => exact (keeps_lift r).bind fun _ => keeps_pure none

theorem topmost_getChildSchema (k : String) :
    Keeps Tree.Topmost (getChildSchema env this k) := by
  refine topmost_getAdditionalProperties.bind fun addProp => ?_
  refine (topmost_load this).bind fun s => ?_
  split
  · split
    · exact (topmost_setParent (by simp) _).bind fun _ => keeps_pure _
    · exact topmost_absent addProp _
  · exact topmost_absent addProp _

theorem topmost_getChildSchemaAt (idx : ℤ) :
    Keeps Tree.Topmost (getChildSchemaAt env this idx) := by
  refine topmost_getAdditionalProperties.bind fun addProp => ?_
  refine (topmost_load this).bind fun s => ?_
  split
  · split
    · split
      · exact topmost_absent addProp _
      · split
        · exact keeps_throw _
        · exact (topmost_setParent (by simp) _).bind fun _ => keeps_pure _
    · exact keeps_pure _
  · exact topmost_absent addProp _

theorem topmost_validMinSize (size : ℕ) :
    Keeps Tree.Topmost (validMinSize env this size) := by
  refine (topmost_load this).bind fun s => (keeps_lift _).bind fun b => ?_
  split
  · split
    · refine topmost_getAdditionalProperties.bind fun addProp => ?_
      cases addProp with
      | some p => exact keeps_pure true
      | none =>
          dsimp only
          split
          · exact keeps_lift _
          · exact keeps_pure true
    · exact keeps_pure true
  · exact keeps_pure false

theorem topmost_setDefault (object : Json D) (k : String) :
    Keeps Tree.Topmost (setDefault env this object k) := by
  refine (topmost_load _).bind fun s => ?_
  split
  · split
    · exact keeps_pure []
    · exact (keeps_lift _).bind fun d => (topmost_modify _ _).bind fun _ =>
        (keeps_lift _).bind fun _ => keeps_pure _
  · exact keeps_pure []

theorem topmost_setDefaults (object : Json D) :
    Keeps Tree.Topmost (setDefaults env this object) := by
  have hloop : ∀ names, Keeps Tree.Topmost (setDefaultsLoop env this object names) := by
    intro names
    induction names with
    | nil => exact keeps_pure []
    | cons k rest ih =>
        exact (topmost_setDefault object k).bind fun _ => ih.bind fun _ => keeps_pure _
  exact (topmost_load this).bind fun s => (keeps_lift _).bind fun names => hloop names

end Schema

section Parser

/-- The root of the schema has no parent. -/
def Context.Topmost (c : Context D) : Prop :=
  c.store.Topmost

theorem topmost_getJson : Keeps Context.Topmost (getJson : ParserM D Path) := by
  refine Keeps.bind (fun _ h => h) fun c => ?_
  cases c.cursor with
  | none => exact keeps_throw _
  | some p => exact keeps_pure p

theorem topmost_loadJson (p : Path) :
    Keeps Context.Topmost (loadJson p : ParserM D (Json D)) := by
  refine Keeps.bind (fun _ h => h) fun c => ?_
  cases c.json.root.node p with
  | none => exact keeps_throw _
  | some j => exact keeps_pure j

theorem topmost_setJson (p : Path) : Keeps Context.Topmost (setJson p : ParserM D Unit) :=
  fun _ h => h

theorem topmost_setSchema (p : Path) : Keeps Context.Topmost (setSchema p : ParserM D Unit) :=
  fun _ h => h

theorem topmost_updateJson (f : Tree D → Tree D) :
    Keeps Context.Topmost (updateJson f : ParserM D Unit) :=
  fun _ h => h

theorem topmost_setJsonUp : Keeps Context.Topmost (setJsonUp : ParserM D Unit) :=
  topmost_getJson.bind fun _ => Keeps.bind (fun _ h => h) fun _ _ h => h

theorem topmost_assertType (p : Path) (kind : Kind) :
    Keeps Context.Topmost (assertType p kind : ParserM D Unit) := by
  refine (topmost_loadJson p).bind fun j => ?_
  split
  · exact keeps_pure ()
  · exact keeps_throw _

theorem topmost_onSchema {α : Type} {m : SchemaM D α} (hm : Keeps Tree.Topmost m) :
    Keeps Context.Topmost (onSchema m) :=
  fun c h => hm c.store h

theorem topmost_withSchema {check : Path → SchemaM D Bool}
    (hcheck : ∀ s, Keeps Tree.Topmost (check s)) :
    Keeps Context.Topmost (withSchema check) := by
  refine Keeps.bind (fun _ h => h) fun c => ?_
  cases c.schema with
  | none => exact keeps_pure true
  | some s => exact topmost_onSchema (hcheck s)

/-- The end of a callback: the cursors go up if the checks let it go on. -/
theorem topmost_up (b : Bool) :
    Keeps Context.Topmost (if b then do
      setJsonUp
      return true
    else
      return false : ParserM D Bool) := by
  cases b with
  | true => exact topmost_setJsonUp.bind fun _ => keeps_pure true
  | false => exact keeps_pure false

theorem topmost_getObj (env : Env D) : Keeps Context.Topmost (getObj env) := by
  refine topmost_getJson.bind fun cur => (topmost_loadJson cur).bind fun j => ?_
  cases j with
  | array a =>
      refine (topmost_updateJson _).bind fun _ => Keeps.bind (fun _ h => h) fun c => ?_
      cases c.schema with
      | none => exact (topmost_setJson _).bind fun _ => keeps_pure _
      | some s =>
          refine (topmost_onSchema (topmost_load s)).bind fun n => (keeps_lift _).bind fun b => ?_
          cases b with
          | false => exact keeps_pure none
          | true =>
              refine (topmost_onSchema (topmost_getChildSchemaAt _)).bind fun child => ?_
              cases child with
              | none => exact keeps_pure none
              | some child =>
                  exact (topmost_setSchema child).bind fun _ => (topmost_setJson _).bind fun _ =>
                    keeps_pure _
  | _ => exact keeps_pure _

theorem topmost_parseNull : Keeps Context.Topmost (parseNull env) := by
  refine (topmost_getObj env).bind fun obj => ?_
  cases obj with
  | none => exact keeps_pure false
  | some cur =>
      refine (topmost_assertType cur .undef).bind fun _ => ?_
      refine (topmost_withSchema fun s => ?_).bind topmost_up
      exact (topmost_load s).bind fun _ => keeps_lift _

theorem topmost_parseValue (value : Json D) : Keeps Context.Topmost (parseValue env value) := by
  refine (topmost_getObj env).bind fun obj => ?_
  cases obj with
  | none => exact keeps_pure false
  | some cur =>
      refine (topmost_assertType cur .undef).bind fun _ => (topmost_updateJson _).bind fun _ => ?_
      refine (topmost_withSchema fun s => ?_).bind topmost_up
      exact (topmost_load s).bind fun _ => keeps_lift _

theorem topmost_parseNumber (lexeme : String) :
    Keeps Context.Topmost (parseNumber env lexeme) := by
  refine (topmost_getObj env).bind fun obj => ?_
  cases obj with
  | none => exact keeps_pure false
  | some cur =>
      refine (keeps_lift _).bind fun value => (topmost_updateJson _).bind fun _ => ?_
      refine Keeps.bind (fun _ h => h) fun c => ?_
      cases c.schema with
      | none => exact topmost_setJsonUp.bind fun _ => keeps_pure true
      | some s =>
          refine (topmost_onSchema (topmost_load s)).bind fun n => (keeps_lift _).bind fun b => ?_
          cases b with
          | false => exact keeps_pure false
          | true =>
              refine (keeps_lift _).bind fun value' => (topmost_updateJson _).bind fun _ => ?_
              exact topmost_setJsonUp.bind fun _ => keeps_pure true

theorem topmost_parseStart (value : Json D) : Keeps Context.Topmost (parseStart env value) := by
  refine (topmost_getObj env).bind fun obj => ?_
  cases obj with
  | none => exact keeps_pure false
  | some cur =>
      refine (topmost_assertType cur .undef).bind fun _ => (topmost_updateJson _).bind fun _ => ?_
      refine (topmost_withSchema fun s => ?_).bind fun b => ?_
      · exact (topmost_load s).bind fun _ => keeps_lift _
      · cases b with
        | false => exact keeps_pure false
        | true => exact (topmost_setJson cur).bind fun _ => keeps_pure true

theorem topmost_newKey (cur : Path) (name : String) :
    Keeps Context.Topmost (newKey cur name : ParserM D Bool) := by
  refine (topmost_loadJson cur).bind fun j => ?_
  split
  · exact keeps_throw _
  · exact (topmost_updateJson _).bind fun _ => (topmost_setJson _).bind fun _ => keeps_pure true

theorem topmost_parseMapKey (name : String) : Keeps Context.Topmost (parseMapKey env name) := by
  refine topmost_getJson.bind fun cur => (topmost_assertType cur .object).bind fun _ => ?_
  refine Keeps.bind (fun _ h => h) fun c => ?_
  cases c.schema with
  | none => exact topmost_newKey cur name
  | some s =>
      refine (topmost_onSchema (topmost_getChildSchema name)).bind fun child => ?_
      cases child with
      | none => exact keeps_pure false
      | some child => exact (topmost_setSchema child).bind fun _ => topmost_newKey cur name

theorem topmost_parseEndMap : Keeps Context.Topmost (parseEndMap env) := by
  refine topmost_getJson.bind fun cur => (topmost_assertType cur .object).bind fun _ => ?_
  refine Keeps.bind (fun _ h => h) fun c => ?_
  cases c.schema with
  | none => exact topmost_setJsonUp.bind fun _ => keeps_pure true
  | some s =>
      refine (topmost_loadJson cur).bind fun j => ?_
      refine (topmost_onSchema (topmost_setDefaults j)).bind fun added => ?_
      refine (topmost_updateJson _).bind fun _ => ?_
      refine (topmost_onSchema (topmost_load s)).bind fun n => ?_
      exact (topmost_loadJson cur).bind fun _ => (keeps_lift _).bind topmost_up

theorem topmost_parseEndArray : Keeps Context.Topmost (parseEndArray env) := by
  refine topmost_getJson.bind fun cur => (topmost_loadJson cur).bind fun j => ?_
  cases j with
  | array a =>
      exact (topmost_withSchema fun s => topmost_validMinSize a.length).bind topmost_up
  | _ => exact keeps_throw _

/-- One event. -/
theorem topmost_callback (env : Env D) (e : Event) : Keeps Context.Topmost (callback env e) := by
  cases e with
  | null => exact topmost_parseNull
  | boolean b => exact topmost_parseValue _
  | number lexeme => exact topmost_parseNumber lexeme
  | string v => exact topmost_parseValue _
  | startMap => exact topmost_parseStart _
  | mapKey k => exact topmost_parseMapKey k
  | endMap => exact topmost_parseEndMap
  | startArray => exact topmost_parseStart _
  | endArray => exact topmost_parseEndArray

end Parser

end Json

end Gearbox
