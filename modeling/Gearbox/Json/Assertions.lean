import Gearbox.Json.Cursors
import Gearbox.Json.Faults

/-!
# The assertions of the parser

Where the cursors stand at the spot of the events so far, a callback for an event that may
follow does not fail an assertion and follows no pointer that points nowhere, except for one:
an array with a list of schemas gets an element at index `2 ^ 31`. The index is negative as an
`int`, and `getChildSchema` uses it as an index into the list.
-/

namespace Gearbox

namespace Json

open Refinement Refinement.Verdict

variable {D : Type}

section Callbacks

variable {env : Env D} {T : Json D} {c c' : Context D} {p : Path}
  {place : Option (Place D)}

theorem faultless_onSchema {α : Type} {m : SchemaM D α}
    (h : Faultless (outcome m c.store).1) : Faultless (outcome (onSchema m) c).1 :=
  h

theorem faultless_withSchema {check : Path → SchemaM D Bool} (h : Points env T c place)
    (hcheck : ∀ place : Place D, Holds env T c.store place.sels place.schema →
      Faultless (outcome (check (paths place.sels)) c.store).1) :
    Faultless (outcome (withSchema check) c).1 := by
  cases place with
  | none =>
      rw [outcome_withSchema_none h check]
      exact failsWith_ok true
  | some place =>
      obtain ⟨hschema, hholds⟩ := h
      rw [outcome_withSchema_some hschema check]
      exact hcheck place hholds

/-- A check does not move the cursor. -/
theorem cursor_of_withSchema {check : Path → SchemaM D Bool} {b : Bool}
    (h : outcome (withSchema check) c = (.ok b, c')) : c'.cursor = c.cursor := by
  cases hschema : c.schema with
  | none =>
      rw [outcome_withSchema_none hschema check] at h
      cases h
      rfl
  | some s =>
      rw [outcome_withSchema_some hschema check] at h
      obtain ⟨-, rfl⟩ := Prod.mk.inj h
      rfl

/-- The cursors go up if the check lets the parse go on. -/
theorem faultless_up (hcursor : c.cursor = some p) (b : Bool) :
    Faultless (outcome (if b then do
      setJsonUp
      return true
    else
      return false : ParserM D Bool) c).1 := by
  cases b with
  | true => exact FailsWith.step (outcome_setJsonUp hcursor) (failsWith_ok true)
  | false => exact failsWith_ok false

theorem faultless_newKey {o : List (String × Json D)}
    (hnode : c.json.root.node p = some (.object o)) (k : String) :
    Faultless (outcome (newKey p k) c).1 := by
  rw [newKey]
  refine FailsWith.step (outcome_loadJson hnode) ?_
  split
  · exact failsWith_error rfl
  · refine FailsWith.step (outcome_updateJson _ c) ?_
    exact FailsWith.step (outcome_setJson _ _) (failsWith_ok true)

variable (hh : ∀ p m, Faultless (env.errHandler p m))

include hh

theorem faultless_typeCheck {t : Tree D} {place : Place D}
    (h : Holds env T t place.sels place.schema) (kind : Kind) :
    Faultless (outcome (do
        validType (env.errHandler (paths place.sels)) (← load (paths place.sels)) kind :
          SchemaM D Bool) t).1 := by
  obtain ⟨s', -, hload, -, -⟩ := h.node
  exact FailsWith.step hload (faultless_validType (hh _) s' kind)

theorem faultless_scalar {s value : Json D} (q : Path) :
    Faultless (both (validType (env.errHandler q) s value.type)
      (validValue env (env.errHandler q) s value)) :=
  faultless_both (faultless_validType (hh q) s value.type)
    (faultless_validValue env (hh q) s value)

section Slots

variable (hslot : Slot c p) (hpoints : Points env T c place)

include hslot hpoints

theorem faultless_parseNull : Faultless (outcome (parseNull env) c).1 := by
  rw [parseNull]
  refine FailsWith.step (hslot.getObj env) ?_
  refine FailsWith.step (outcome_assertType hslot.node rfl) ?_
  refine FailsWith.seq (faultless_withSchema hpoints fun _ hholds =>
    faultless_typeCheck hh hholds .undef) fun b c' hcheck => ?_
  exact faultless_up ((cursor_of_withSchema hcheck).trans hslot.cursor) b

theorem faultless_parseValue (value : Json D) :
    Faultless (outcome (parseValue env value) c).1 := by
  have hpoints' : Points env T { c with json := c.json.modify p fun _ => value } place :=
    hpoints.mono rfl (Kept.refl env c)
  rw [parseValue]
  refine FailsWith.step (hslot.getObj env) ?_
  refine FailsWith.step (outcome_assertType hslot.node rfl) ?_
  refine FailsWith.step (outcome_updateJson _ c) ?_
  refine FailsWith.seq (faultless_withSchema hpoints' fun _ hholds => ?_) fun b c' hcheck => ?_
  · obtain ⟨s', -, hload, -, -⟩ := hholds.node
    exact FailsWith.step hload (faultless_scalar hh _)
  · exact faultless_up ((cursor_of_withSchema hcheck).trans hslot.cursor) b

theorem faultless_parseStart (value : Json D) :
    Faultless (outcome (parseStart env value) c).1 := by
  have hpoints' : Points env T { c with json := c.json.modify p fun _ => value } place :=
    hpoints.mono rfl (Kept.refl env c)
  rw [parseStart]
  refine FailsWith.step (hslot.getObj env) ?_
  refine FailsWith.step (outcome_assertType hslot.node rfl) ?_
  refine FailsWith.step (outcome_updateJson _ c) ?_
  refine FailsWith.seq (faultless_withSchema hpoints' fun _ hholds =>
    faultless_typeCheck hh hholds value.type) fun b c' _ => ?_
  cases b with
  | true => exact failsWith_ok true
  | false => exact failsWith_ok false

theorem faultless_parseNumber (lexeme : String) :
    Faultless (outcome (parseNumber env lexeme) c).1 := by
  rw [parseNumber]
  refine FailsWith.step (hslot.getObj env) ?_
  refine FailsWith.call (faultless_lexNumber env lexeme) fun value _ => ?_
  refine FailsWith.step (outcome_updateJson _ c) ?_
  refine FailsWith.step (outcome_get _) ?_
  cases place with
  | none =>
      have hschema : c.schema = none := hpoints
      simp only [hschema]
      exact FailsWith.step (outcome_setJsonUp hslot.cursor) (failsWith_ok true)
  | some place =>
      obtain ⟨hschema, hholds⟩ := hpoints
      obtain ⟨s', -, hload, -, -⟩ := hholds.node
      simp only [hschema]
      refine FailsWith.step (outcome_onSchema_load hload) ?_
      refine FailsWith.call (faultless_scalar hh _) fun b _ => ?_
      cases b with
      | false => exact failsWith_ok false
      | true =>
          refine FailsWith.call (faultless_typeFixup env s' value) fun value' _ => ?_
          refine FailsWith.step (outcome_updateJson _ _) ?_
          exact FailsWith.step (outcome_setJsonUp hslot.cursor) (failsWith_ok true)

/-- The first event of a value. -/
theorem faultless_enter {e : Event} {q : Path} {spot : Spot}
    (hnext : Spot.enter q e = some spot) : Faultless (outcome (callback env e) c).1 := by
  cases e with
  | null => exact faultless_parseNull hh hslot hpoints
  | boolean b => exact faultless_parseValue hh hslot hpoints _
  | number lexeme => exact faultless_parseNumber hh hslot hpoints lexeme
  | string v => exact faultless_parseValue hh hslot hpoints _
  | startMap => exact faultless_parseStart hh hslot hpoints _
  | startArray => exact faultless_parseStart hh hslot hpoints _
  | _ => cases hnext

end Slots

section Containers

variable (hcursor : c.cursor = some p) (hpoints : Points env T c place)
  (hset : SetOnSchemas env T)

include hcursor hpoints

theorem faultless_parseEndMap {o : List (String × Json D)}
    (hnode : c.json.root.node p = some (.object o)) :
    Faultless (outcome (parseEndMap env) c).1 := by
  rw [parseEndMap]
  refine FailsWith.step (outcome_getJson hcursor) ?_
  refine FailsWith.step (outcome_assertType hnode rfl) ?_
  refine FailsWith.step (outcome_get c) ?_
  cases place with
  | none =>
      have hschema : c.schema = none := hpoints
      simp only [hschema]
      exact FailsWith.step (outcome_setJsonUp hcursor) (failsWith_ok true)
  | some place =>
      obtain ⟨hschema, hholds⟩ := hpoints
      simp only [hschema]
      refine FailsWith.step (outcome_loadJson hnode) ?_
      refine FailsWith.seq (faultless_onSchema (faultless_setDefaults hholds _)) ?_
      intro added c₁ hadded
      obtain ⟨hok, rfl⟩ := Prod.mk.inj hadded
      have hextends := (meets_setDefaults hholds (.object o)).1
      obtain ⟨s', -, hload, -, -⟩ := (hholds.mono hextends).node
      have hnode₁ : (addDefaults p added c.json).root.node p =
          some (.object (addMembers added o)) := by
        rw [root_addDefaults added hnode, node_modify, hnode, Option.map_some]
      refine FailsWith.step (outcome_updateJson _ _) ?_
      refine FailsWith.step (outcome_onSchema_load hload) ?_
      refine FailsWith.step (outcome_loadJson hnode₁) ?_
      refine FailsWith.call (faultless_validRequires (hh _) s' _) fun b _ => ?_
      apply faultless_up (p := p)
      exact hcursor

theorem faultless_parseEndArray {a : List (Json D)}
    (hnode : c.json.root.node p = some (.array a)) :
    Faultless (outcome (parseEndArray env) c).1 := by
  rw [parseEndArray]
  refine FailsWith.step (outcome_getJson hcursor) ?_
  refine FailsWith.step (outcome_loadJson hnode) ?_
  refine FailsWith.seq (faultless_withSchema hpoints fun _ hholds =>
    faultless_validMinSize hholds hh a.length) fun b c' hcheck => ?_
  exact faultless_up ((cursor_of_withSchema hcheck).trans hcursor) b

include hset

theorem faultless_parseMapKey {o : List (String × Json D)}
    (hnode : c.json.root.node p = some (.object o)) (k : String) :
    Faultless (outcome (parseMapKey env k) c).1 := by
  rw [parseMapKey]
  refine FailsWith.step (outcome_getJson hcursor) ?_
  refine FailsWith.step (outcome_assertType hnode rfl) ?_
  refine FailsWith.step (outcome_get c) ?_
  cases place with
  | none =>
      have hschema : c.schema = none := hpoints
      simp only [hschema]
      exact faultless_newKey hnode k
  | some place =>
      obtain ⟨hschema, hholds⟩ := hpoints
      simp only [hschema]
      refine FailsWith.seq (faultless_onSchema (faultless_getChildSchema hholds hh hset k)) ?_
      intro child c₁ hchild
      obtain ⟨-, rfl⟩ := Prod.mk.inj hchild
      cases child with
      | none => exact failsWith_ok false
      | some child =>
          refine FailsWith.step (outcome_setSchema child _) ?_
          apply faultless_newKey
          exact hnode

/-- The place for an element whose index is not negative where that matters. -/
theorem faultless_getObj {a : List (Json D)} (hnode : c.json.root.node p = some (.array a))
    (hindex : ∀ pl, place = some pl → pl.schema.tuple.isSome →
      validMaxSize (env.errHandler (paths pl.sels)) pl.schema (a.length + 1) = .ok true →
      0 ≤ toInt32 a.length) : Faultless (outcome (getObj env) c).1 := by
  rw [getObj]
  refine FailsWith.step (outcome_getJson hcursor) ?_
  refine FailsWith.step (outcome_loadJson hnode) ?_
  refine FailsWith.step (outcome_updateJson _ c) ?_
  refine FailsWith.step (outcome_get _) ?_
  cases place with
  | none =>
      have hschema : c.schema = none := hpoints
      simp only [hschema]
      exact FailsWith.step (outcome_setJson _ _) (failsWith_ok _)
  | some place =>
      obtain ⟨hschema, hholds⟩ := hpoints
      obtain ⟨s', -, hload, halike, -⟩ := hholds.node
      simp only [hschema]
      refine FailsWith.step (outcome_onSchema_load hload) ?_
      refine FailsWith.call (faultless_validMaxSize (hh _) s' _) fun b hmax => ?_
      cases b with
      | false => exact failsWith_ok none
      | true =>
          rw [← halike.validMaxSize_eq] at hmax
          simp only [if_true, toInt32_succ_sub]
          refine FailsWith.seq (faultless_onSchema (faultless_getChildSchemaAt hholds hh hset
            fun htuple => hindex place rfl htuple hmax)) fun child c₁ _ => ?_
          cases child with
          | none => exact failsWith_ok none
          | some child =>
              refine FailsWith.step (outcome_setSchema child _) ?_
              exact FailsWith.step (outcome_setJson _ _) (failsWith_ok _)

omit hh in
/-- The place for an element whose index is negative. -/
theorem outcome_getObj_negative {a : List (Json D)} {pl : Place D}
    (hnode : c.json.root.node p = some (.array a)) (hplace : place = some pl)
    (htuple : pl.schema.tuple.isSome)
    (hmax : validMaxSize (env.errHandler (paths pl.sels)) pl.schema (a.length + 1) = .ok true)
    (hindex : toInt32 a.length < 0) : (outcome (getObj env) c).1 = .error .undefined := by
  subst hplace
  obtain ⟨hschema, hholds⟩ := hpoints
  obtain ⟨s', -, hload, halike, -⟩ := hholds.node
  rw [halike.validMaxSize_eq] at hmax
  have hchild := outcome_getChildSchemaAt_negative hholds hset htuple hindex
  rw [getObj]
  refine error_step (outcome_getJson hcursor) ?_
  refine error_step (outcome_loadJson hnode) ?_
  refine error_step (outcome_updateJson _ c) ?_
  refine error_step (outcome_get _) ?_
  simp only [hschema]
  refine error_step (outcome_onSchema_load hload) ?_
  refine error_step (congrArg (·, _) hmax) ?_
  simp only [if_true, toInt32_succ_sub]
  exact error_first hchild

end Containers

end Callbacks

section Runs

variable {env : Env D} {T : Json D} {root : Option (Place D)} {c : Context D} {e : Event}
  {spot spot' : Spot}

/-- The next event begins an element whose index is no `int`, in an array that may have it
and has a list of schemas. -/
def Overruns (env : Env D) (c : Context D) (e : Event) : Prop :=
  e ≠ .endArray ∧ ∃ p a s n, c.cursor = some p ∧ c.json.root.node p = some (.array a) ∧
    c.schema = some s ∧ c.store.root.node s = some n ∧ n.tuple.isSome ∧ 2 ^ 31 ≤ a.length ∧
    validMaxSize (env.errHandler s) n (a.length + 1) = .ok true

theorem le_of_toInt32_neg {size : ℕ} (h : toInt32 size < 0) : 2 ^ 31 ≤ size := by
  by_contra hlt
  rw [toInt32_of_lt (by omega)] at h
  omega

section Safe

variable (hh : ∀ p m, Faultless (env.errHandler p m)) (hset : SetOnSchemas env T)

include hh hset

/-- One event: the callback makes no fault, unless the index overruns. -/
theorem Stands.faultless (h : Stands env T root c spot) (hnext : spot.next e = some spot')
    (hfits : ¬ Overruns env c e) : Faultless (outcome (callback env e) c).1 := by
  cases spot with
  | value p =>
      obtain ⟨place, hlocated, hnode⟩ := h
      exact faultless_enter hh ⟨hlocated.cursor, hnode⟩ hlocated.points hnext
  | object p =>
      obtain ⟨place, o, hlocated, hnode⟩ := h
      cases e with
      | mapKey k => exact faultless_parseMapKey hh hlocated.cursor hlocated.points hset hnode k
      | endMap => exact faultless_parseEndMap hh hlocated.cursor hlocated.points hnode
      | _ => cases hnext
  | array p size =>
      obtain ⟨place, a, hlocated, hnode, rfl, hsize⟩ := h
      by_cases he : e = .endArray
      · subst he
        exact faultless_parseEndArray hh hlocated.cursor hlocated.points hnode
      · rw [Spot.next_array he] at hnext
        obtain ⟨f, hcallback, hnone⟩ := callback_of_enter env hnext
        rw [hcallback]
        refine FailsWith.seq (faultless_getObj hh hlocated.cursor hlocated.points hset hnode
          ?_) fun r c₁ hobj => ?_
        · rintro pl rfl htuple hmax
          by_contra hneg
          obtain ⟨hschema, hholds⟩ := hlocated.points
          obtain ⟨n, hreal, -, halike, -⟩ := hholds.node
          refine hfits ⟨he, p, a, paths pl.sels, n, hlocated.cursor, hnode, hschema,
            node_of_real hreal, ?_, ?_, ?_⟩
          · rw [halike.isSome_tuple]
            exact htuple
          · exact le_of_toInt32_neg (Int.not_le.mp hneg)
          · rw [← halike.validMaxSize_eq]
            exact hmax
        · cases r with
          | none =>
              rw [hnone]
              exact failsWith_ok false
          | some q =>
              obtain ⟨child, hlocated₁, hslot₁, rfl⟩ :=
                hlocated.element hset hnode hsize hobj
              have hentered := faultless_enter hh hslot₁ hlocated₁.points hnext
              rw [hcallback, outcome_bind_ok (hslot₁.getObj env)] at hentered
              exact hentered
  | finished => cases hnext

end Safe

/-- An index that overruns is used as an index into the list of schemas. -/
theorem Stands.overrun (hset : SetOnSchemas env T) (h : Stands env T root c spot)
    (hnext : spot.next e = some spot') (hover : Overruns env c e) :
    (outcome (callback env e) c).1 = .error .undefined := by
  obtain ⟨he, p, a, s, n, hcursor, hnode, hschema, hn, htuple, hlarge, hmax⟩ := hover
  have hat : ∀ q place j, Located env T root c q place → c.json.root.node q = some j →
      j = .array a ∧ q = p := by
    intro q place j hlocated hj
    have hq : q = p := Option.some.inj (hlocated.cursor.symm.trans hcursor)
    subst hq
    exact ⟨Option.some.inj (hj.symm.trans hnode), rfl⟩
  cases spot with
  | value q =>
      obtain ⟨place, hlocated, hj⟩ := h
      cases (hat q place _ hlocated hj).1
  | object q =>
      obtain ⟨place, o, hlocated, hj⟩ := h
      cases (hat q place _ hlocated hj).1
  | array q size =>
      obtain ⟨place, a', hlocated, hj, rfl, hsize⟩ := h
      obtain ⟨ha, rfl⟩ := hat q place _ hlocated hj
      cases ha
      have hpoints := hlocated.points
      cases place with
      | none =>
          have hnone : c.schema = none := hpoints
          rw [hnone] at hschema
          cases hschema
      | some pl =>
          obtain ⟨hpl, hholds⟩ := hpoints
          obtain rfl := Option.some.inj (hpl.symm.trans hschema)
          obtain ⟨n', hreal, -, halike, -⟩ := hholds.node
          obtain rfl := Option.some.inj ((node_of_real hreal).symm.trans hn)
          rw [halike.isSome_tuple] at htuple
          rw [← halike.validMaxSize_eq] at hmax
          have hlength : a.length = 2 ^ 31 :=
            Nat.le_antisymm (hsize pl rfl htuple) hlarge
          have hneg : toInt32 a.length < 0 := by
            rw [hlength]
            decide
          rw [Spot.next_array he] at hnext
          obtain ⟨f, hcallback, -⟩ := callback_of_enter env hnext
          rw [hcallback]
          exact error_first (outcome_getObj_negative hcursor hlocated.points hset hnode rfl
            htuple hmax hneg)
  | finished => cases hnext

end Runs

section Documents

/-- The schema cursor is at the sub-schema that the steps to the path select. -/
def SchemaAt (env : Env D) (schema : Option (Json D)) (c : Context D) (p : Path) : Prop :=
  match schema with
  | none => c.schema = none
  | some T => ∃ place, Place.follow ⟨[], T⟩ p = some place ∧
      c.schema = some (paths place.sels) ∧ Holds env T c.store place.sels place.schema

/-- The cursors are at the spot of the document and at the sub-schema for it, and they have
left both roots when the document is complete. -/
def CursorsAt (env : Env D) (schema : Option (Json D)) (c : Context D) : Spot → Prop
  | .value p => c.cursor = some p ∧ c.json.root.node p = some .undef ∧ SchemaAt env schema c p
  | .object p => c.cursor = some p ∧ (∃ o, c.json.root.node p = some (.object o)) ∧
      SchemaAt env schema c p
  | .array p size => c.cursor = some p ∧
      (∃ a, c.json.root.node p = some (.array a) ∧ a.length = size) ∧ SchemaAt env schema c p
  | .finished => c.cursor = none ∧ c.schema = none

/-- The callbacks for the first `n` events of the document have returned 1. -/
def Reaches (env : Env D) (schema : Option (Json D)) (d : Doc) (n : ℕ) (c : Context D) : Prop :=
  outcome (feed env (d.events.take n)) (Context.start (schema.map Tree.fresh)) = (.ok (), c)

/-- In every context that a parse reaches the cursors are where the events say, and the next
callback neither fails an assertion nor follows a pointer that points nowhere. -/
def CursorsSafe (env : Env D) (schema : Option (Json D)) (d : Doc) : Prop :=
  ∀ n c, n ≤ d.events.length → Reaches env schema d n c →
    ∃ spot, (Spot.value []).after (d.events.take n) = some spot ∧
      (spot = .finished ↔ n = d.events.length) ∧ CursorsAt env schema c spot ∧
      ∀ e, d.events[n]? = some e → Faultless (outcome (callback env e) c).1

variable {env : Env D} {schema : Option (Json D)} {d : Doc} {n : ℕ} {c : Context D}

/-- The sub-schema at the root. -/
def rootPlace (schema : Option (Json D)) : Option (Place D) :=
  schema.map fun T => ⟨[], T⟩

theorem stands_start (env : Env D) (schema : Option (Json D)) :
    Stands env (schema.getD .undef) (rootPlace schema) (Context.start (schema.map Tree.fresh))
      (.value []) := by
  refine ⟨rootPlace schema, ⟨.root, ?_, rfl, rfl, ?_⟩, rfl⟩
  · cases schema with
    | none => rfl
    | some T => exact points_start (Extends.refl env _)
  · cases schema with
    | none => rfl
    | some T => rfl

theorem Stands.cursorsAt {spot : Spot}
    (h : Stands env (schema.getD .undef) (rootPlace schema) c spot) :
    CursorsAt env schema c spot := by
  have hschema : ∀ p place, Located env (schema.getD .undef) (rootPlace schema) c p place →
      SchemaAt env schema c p := by
    intro p place hlocated
    cases place with
    | none =>
        have hnone := hlocated.trail.root_eq_none rfl
        cases schema with
        | none => exact hlocated.points
        | some T => cases hnone
    | some place =>
        obtain ⟨first, hfirst, hfollow⟩ := hlocated.trail.follow rfl
        cases schema with
        | none => cases hfirst
        | some T =>
            cases hfirst
            exact ⟨place, hfollow, hlocated.points⟩
  cases spot with
  | value p =>
      obtain ⟨place, hlocated, hnode⟩ := h
      exact ⟨hlocated.cursor, hnode, hschema p place hlocated⟩
  | object p =>
      obtain ⟨place, o, hlocated, hnode⟩ := h
      exact ⟨hlocated.cursor, ⟨o, hnode⟩, hschema p place hlocated⟩
  | array p size =>
      obtain ⟨place, a, hlocated, hnode, hsize, -⟩ := h
      exact ⟨hlocated.cursor, ⟨a, hnode, hsize⟩, hschema p place hlocated⟩
  | finished => exact h

/-- Every context that a parse reaches. -/
theorem Reaches.stands (hset : SetOnSchemas env (schema.getD .undef))
    (h : Reaches env schema d n c) {spot : Spot}
    (hafter : (Spot.value []).after (d.events.take n) = some spot) :
    Stands env (schema.getD .undef) (rootPlace schema) c spot := by
  have hroot : ∀ first, rootPlace schema = some first → first.sels = [] := by
    intro first hfirst
    obtain ⟨T, -, rfl⟩ := Option.map_eq_some_iff.mp hfirst
    rfl
  exact (stands_start env schema).after hroot hset hafter h

/-- In a parse without a fault no index overruns. -/
theorem CursorsSafe.not_overruns (hset : SetOnSchemas env (schema.getD .undef))
    (h : CursorsSafe env schema d) (hreaches : Reaches env schema d n c) {e : Event}
    (he : d.events[n]? = some e) : ¬ Overruns env c e := by
  intro hover
  obtain ⟨spot, spot', hafter, hnext⟩ := Spot.exists_of_events d he
  obtain ⟨hn, -⟩ := List.getElem?_eq_some_iff.mp he
  obtain ⟨-, -, -, -, hfaultless⟩ := h n c hn.le hreaches
  have hfault := (hreaches.stands hset hafter).overrun hset hnext hover
  cases hfaultless e he .undefined hfault

/-- The cursors of a parse are right and no callback makes a fault, if and only if no index
overruns. -/
theorem cursorsSafe_iff (env : Env D) (schema : Option (Json D)) (d : Doc) :
    CursorsSafe env.throwing schema d ↔ ∀ n c e, Reaches env.throwing schema d n c →
      d.events[n]? = some e → ¬ Overruns env.throwing c e := by
  have hset : SetOnSchemas env.throwing (schema.getD .undef) :=
    setOnSchemas_of_throwing (fun _ => rfl) _
  constructor
  · intro hsafe n c e hreaches he
    exact hsafe.not_overruns hset hreaches he
  · intro hfits n c hn hreaches
    rcases hn.lt_or_eq with hlt | rfl
    · obtain ⟨spot, spot', hafter, hnext⟩ :=
        Spot.exists_of_events d (List.getElem?_eq_getElem hlt)
      have hstands := hreaches.stands hset hafter
      refine ⟨spot, hafter, ⟨?_, fun h => absurd h hlt.ne⟩, hstands.cursorsAt, ?_⟩
      · rintro rfl
        cases hnext
      · intro e he
        obtain rfl := Option.some.inj ((List.getElem?_eq_getElem hlt).symm.trans he)
        exact hstands.faultless (fun _ => faultless_onErrorThrow) hset hnext
          (hfits n c _ hreaches he)
    · have hafter : (Spot.value []).after (d.events.take d.events.length) =
          some .finished := by
        rw [List.take_length]
        exact Spot.after_events d []
      refine ⟨.finished, hafter, by simp, (hreaches.stands hset hafter).cursorsAt, ?_⟩
      intro e he
      rw [List.getElem?_eq_none (Nat.le_refl _)] at he
      cases he

end Documents

section Nulls

variable {env : Env D} {size m : ℕ}

/-- A list of no schemas: there is a schema for every element, the one for additional
properties. -/
def emptyTuple : Json D :=
  .object [("items", .array [])]

/-- An array of nulls. -/
def nullList (size : ℕ) : Doc :=
  .array (List.replicate size .null)

theorem elementEvents_nullList (size : ℕ) :
    Doc.elementEvents (List.replicate size .null) = List.replicate size .null := by
  induction size with
  | zero => rfl
  | succ size ih =>
      rw [List.replicate_succ, List.replicate_succ, Doc.elementEvents, ih]
      rfl

theorem judgeIndex_emptyTuple (h : size < 2 ^ 31) :
    judgeIndex env.throwing ⟨[], emptyTuple⟩ (toInt32 size) =
      passed ⟨[.additional], anySchema⟩ := by
  have hmember : (emptyTuple : Json D).member "items" = some (.array []) := rfl
  have hlength : (array [] : Json D).length = 0 := by simp [length, toInt32]
  rw [toInt32_of_lt h, judgeIndex, hmember]
  dsimp only
  rw [hlength, if_pos (Int.le_refl 0), if_pos (Int.natCast_nonneg size)]
  rfl

theorem receiveElements_nullList {a : List (Json D)} (h : a.length + size ≤ 2 ^ 31) :
    receiveElements env.throwing (some ⟨[], emptyTuple⟩) a (List.replicate size .null) =
      passed (a ++ List.replicate size .undef) := by
  induction size generalizing a with
  | zero =>
      rw [List.replicate_zero, List.replicate_zero, List.append_nil]
      rfl
  | succ size ih =>
      have hmax : judgeMaxSize env.throwing ⟨[], emptyTuple⟩ (a.length + 1) = passed () := rfl
      have hchild : judgeIndex env.throwing ⟨[], emptyTuple⟩ (toInt32 a.length) =
          passed ⟨[.additional], anySchema⟩ := judgeIndex_emptyTuple (by omega)
      have hnull : receive env.throwing (some ⟨[.additional], anySchema⟩) .null =
          passed .undef := rfl
      have hrest := ih (a := a ++ [.undef]) (by simp; omega)
      rw [List.replicate_succ, receiveElements, demand, hmax, passed_bind, pursue, hchild]
      simp only [passed_bind, pure_eq, hnull, hrest]
      rw [List.append_assoc, List.replicate_succ, List.singleton_append]

theorem take_nullList (h : size ≤ m) :
    (nullList m).events.take (size + 1) =
      .startArray :: Doc.elementEvents (List.replicate size .null) := by
  rw [nullList, Doc.events, elementEvents_nullList, elementEvents_nullList, List.take_succ_cons,
    List.take_append_of_le_length (by simpa using h), List.take_replicate, Nat.min_eq_left h]

theorem getElem?_nullList (h : size < m) : (nullList m).events[size + 1]? = some .null := by
  rw [nullList, Doc.events, elementEvents_nullList, List.getElem?_cons_succ,
    List.getElem?_append_left (by simpa using h), List.getElem?_replicate, if_pos h]

/-- A parse of an array of nulls comes to the index that is no `int`. -/
theorem reaches_nullList (env : Env D) (hsize : size ≤ 2 ^ 31) (hm : size ≤ m) :
    ∃ c, Reaches env.throwing (some emptyTuple) (nullList m) (size + 1) c := by
  have hset : SetOnSchemas env.throwing (emptyTuple : Json D) :=
    setOnSchemas_of_throwing (fun _ => rfl) _
  have hslot : Slot (Context.start (some (Tree.fresh (emptyTuple : Json D)))) [] := slot_start _
  have hpoints : Points env.throwing emptyTuple
      (Context.start (some (Tree.fresh (emptyTuple : Json D)))) (some ⟨[], emptyTuple⟩) :=
    points_start (Extends.refl _ _)
  have hstart := ends_parseStart hslot hpoints (.array [])
  have hfeeds : Feeds env.throwing
      (.startArray :: Doc.elementEvents (List.replicate size .null))
      (Context.start (some (Tree.fresh (emptyTuple : Json D))))
      (demand (some (⟨[], emptyTuple⟩ : Place D)) (fun place =>
        judgeType env.throwing place .array) >>= fun _ =>
          receiveElements env.throwing (some ⟨[], emptyTuple⟩) [] (List.replicate size .null))
      fun _ _ => True := by
    apply Feeds.cons (e := .startArray) hstart
    intro _ c₁ _ hkept₁ hinside₁
    exact (feeds_elements hset _ hinside₁.cursor (hinside₁.node hslot.node)
      (hpoints.mono hinside₁.schema hkept₁)).mono fun _ _ _ _ => trivial
  have htype : demand (some (⟨[], emptyTuple⟩ : Place D)) (fun place =>
      judgeType env.throwing place .array) = passed () := rfl
  have hends := hfeeds.ends
  rw [htype, passed_bind, receiveElements_nullList (by simpa using hsize)] at hends
  obtain ⟨-, u, hok, -⟩ := hends
  simp only [Reaches, take_nullList hm]
  exact ⟨_, Prod.ext hok rfl⟩

/-- There it overruns. -/
theorem overruns_nullList {c : Context D} (hm : 2 ^ 31 ≤ m)
    (h : Reaches env.throwing (some emptyTuple) (nullList m) (2 ^ 31 + 1) c) :
    Overruns env.throwing c .null := by
  have hset : SetOnSchemas env.throwing (emptyTuple : Json D) :=
    setOnSchemas_of_throwing (fun _ => rfl) _
  have hafter : (Spot.value []).after ((nullList m).events.take (2 ^ 31 + 1)) =
      some (.array [] (2 ^ 31)) := by
    have hstart : (Spot.value []).next .startArray = some (.array [] 0) := rfl
    rw [take_nullList hm, Spot.after_cons, hstart, Option.bind_some, Spot.after_elements,
      List.length_replicate, Nat.zero_add]
  obtain ⟨place, a, hlocated, hnode, hlength, -⟩ := h.stands hset hafter
  have hplace : place = some ⟨[], emptyTuple⟩ := by
    cases place with
    | none => cases hlocated.trail.root_eq_none rfl
    | some place =>
        obtain ⟨first, hfirst, hfollow⟩ := hlocated.trail.follow rfl
        cases hfirst
        exact hfollow.symm
  subst hplace
  obtain ⟨hschema, hholds⟩ := hlocated.points
  obtain ⟨s, hreal, -, halike, -⟩ := hholds.node
  have htuple : (emptyTuple : Json D).tuple.isSome := by
    simp [tuple, emptyTuple, member, length, toInt32]
  refine ⟨?_, [], a, [], s, hlocated.cursor, hnode, hschema, node_of_real hreal, ?_,
    hlength.ge, ?_⟩
  · intro h
    cases h
  · rw [halike.isSome_tuple]
    exact htuple
  · rw [← halike.validMaxSize_eq]
    rfl

/-- The parse of an array of `2 ^ 31 + 1` nulls does not end well. -/
theorem not_cursorsSafe :
    ¬ CursorsSafe wholeNumbers.throwing (some emptyTuple) (nullList (2 ^ 31 + 1)) := by
  intro hsafe
  have hset : SetOnSchemas wholeNumbers.throwing (emptyTuple : Json ℤ) :=
    setOnSchemas_of_throwing (fun _ => rfl) _
  obtain ⟨c, hreaches⟩ := reaches_nullList wholeNumbers (Nat.le_refl (2 ^ 31))
    (Nat.le_succ (2 ^ 31))
  exact hsafe.not_overruns hset hreaches (getElem?_nullList (Nat.lt_succ_self _))
    (overruns_nullList (Nat.le_succ _) hreaches)

end Nulls

end Json

end Gearbox
