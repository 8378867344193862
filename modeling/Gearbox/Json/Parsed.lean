import Gearbox.Json.Order
import Gearbox.Json.Selection

/-!
# Parsing with a schema in use

The callbacks of the parser with a schema in use answer what the schema as it was parsed
answers. They return 0 when a check fails and when there is no schema for a child. The
document cursor comes back to the parent of the node where the value was put, and the
schema cursor to the schema that selected the sub-schema for this node.
-/

namespace Gearbox

namespace Json

open Refinement Refinement.Verdict

variable {D : Type} {env : Env D} {T : Json D} {c c₁ c' : Context D} {p : Path}

/-- What a callback does to the schema. -/
def Kept (env : Env D) (c c' : Context D) : Prop :=
  Extends env c.store c'.store

theorem Kept.refl (env : Env D) (c : Context D) : Kept env c c :=
  Extends.refl env c.store

theorem Kept.of_store (h : c'.store = c.store) : Kept env c c' := by
  rw [Kept, h]
  exact Extends.refl env c.store

/-- A part of a program that starts later. -/
theorem kept_after {α β : Type} {no gone : Except Failure α}
    {r : Except Failure α × Context D} {v : Verdict β} {Q : α → β → Context D → Prop}
    (h : Ends no gone r v (Kept env c₁) Q) (hc : Kept env c c₁) :
    Ends no gone r v (Kept env c) Q :=
  h.mono (fun _ => hc.trans) fun _ _ _ _ _ hq => hq

/-- The schema cursor is at the sub-schema, if there is a schema. -/
def Points (env : Env D) (T : Json D) (c : Context D) : Option (Place D) → Prop
  | none => c.schema = none
  | some place => c.schema = some (paths place.sels) ∧
      Holds env T c.store place.sels place.schema

/-- The schema cursor of `c₁` is at the sub-schema that the schema of `c` selects. -/
def Descends (env : Env D) (T : Json D) (c c₁ : Context D) : Option (Place D) → Prop
  | none => c.schema = none ∧ c₁.schema = none
  | some place => ∃ sels sel, c.schema = some (paths sels) ∧ place.sels = sels ++ [sel] ∧
      c₁.schema = some (paths place.sels) ∧
      Holds env T c₁.store place.sels place.schema ∧ Linked c₁.store sels sel

theorem Points.mono {place : Option (Place D)} (h : Points env T c place)
    (hschema : c'.schema = c.schema) (hstore : Kept env c c') : Points env T c' place := by
  cases place with
  | none => exact hschema.trans h
  | some place =>
      obtain ⟨hsels, hholds⟩ := h
      exact ⟨hschema.trans hsels, hholds.mono hstore⟩

theorem Descends.points {place : Option (Place D)} (h : Descends env T c c₁ place) :
    Points env T c₁ place := by
  cases place with
  | none => exact h.2
  | some place =>
      obtain ⟨sels, sel, -, -, hschema, hholds, -⟩ := h
      exact ⟨hschema, hholds⟩

/-- The schema cursor comes back. -/
theorem Descends.up {place : Option (Place D)} (h : Descends env T c c₁ place)
    (hstore : Kept env c₁ c') : c₁.schema.bind c'.store.parent = c.schema := by
  cases place with
  | none => rw [h.1, h.2, Option.bind_none]
  | some place =>
      obtain ⟨sels, sel, hschema, hsels, hschema₁, -, hlinked⟩ := h
      have hparent := hstore.linked sels sel hlinked
      rw [hschema, hschema₁, Option.bind_some, hsels]
      exact hparent

/-- The value `j` was put at `p`, and the cursors went up. -/
structure Done (c : Context D) (p : Path) (j : Json D) (c' : Context D) : Prop where
  root : c'.json.root = c.json.root.modify p fun _ => j
  parent : ∀ q : Path, q.length ≤ p.length → c'.json.parent q = c.json.parent q
  cursor : c'.cursor = c.json.parent p
  schema : c'.schema = c.schema.bind c'.store.parent

/-- The container at `p` became `j`, and the cursors are still there. -/
structure Inside (c : Context D) (p : Path) (j : Json D) (c' : Context D) : Prop where
  root : c'.json.root = c.json.root.modify p fun _ => j
  parent : ∀ q : Path, q.length ≤ p.length → c'.json.parent q = c.json.parent q
  cursor : c'.cursor = some p
  schema : c'.schema = c.schema

theorem Inside.trans {c'' : Context D} {j j' : Json D} (h : Inside c p j c')
    (h' : Inside c' p j' c'') : Inside c p j' c'' where
  root := by
    rw [h'.root, h.root, modify_modify]
    rfl
  parent := fun q hq => (h'.parent q hq).trans (h.parent q hq)
  cursor := h'.cursor
  schema := h'.schema.trans h.schema

theorem Inside.node {j j₀ : Json D} (h : Inside c p j c')
    (hnode : c.json.root.node p = some j₀) : c'.json.root.node p = some j := by
  rw [h.root, node_modify, hnode, Option.map_some]

section Primitives

theorem outcome_getJson (h : c.cursor = some p) :
    outcome getJson c = (.ok p, c) := by
  rw [getJson, outcome_bind_ok (outcome_get c), h]
  rfl

theorem outcome_loadJson {j : Json D} (h : c.json.root.node p = some j) :
    outcome (loadJson p) c = (.ok j, c) := by
  rw [loadJson, outcome_bind_ok (outcome_get c), h]
  rfl

@[simp] theorem outcome_setJson (p : Path) (c : Context D) :
    outcome (setJson p) c = (.ok (), { c with cursor := some p }) := rfl

@[simp] theorem outcome_setSchema (p : Path) (c : Context D) :
    outcome (setSchema p) c = (.ok (), { c with schema := some p }) := rfl

@[simp] theorem outcome_updateJson (f : Tree D → Tree D) (c : Context D) :
    outcome (updateJson f) c = (.ok (), { c with json := f c.json }) := rfl

theorem outcome_setJsonUp (h : c.cursor = some p) :
    outcome setJsonUp c = (.ok (), { c with
      cursor := c.json.parent p
      schema := c.schema.bind c.store.parent }) := by
  rw [setJsonUp, outcome_bind_ok (outcome_getJson h)]
  rfl

theorem outcome_assertType {j : Json D} {kind : Kind} (h : c.json.root.node p = some j)
    (hkind : j.type = kind) : outcome (assertType p kind) c = (.ok (), c) := by
  rw [assertType, outcome_bind_ok (outcome_loadJson h), if_pos hkind]
  rfl

/-- A call of a function of the schema. -/
theorem ends_onSchema {α β : Type} {no gone : Except Failure α} {m : SchemaM D α}
    {v : Verdict β} {Q : α → β → Tree D → Prop}
    (h : Ends no gone (outcome m c.store) v (Extends env c.store) Q) :
    Ends no gone (outcome (onSchema m) c) v (Kept env c) (fun a b c' =>
      ∃ t, c' = { c with store := t } ∧ Q a b t) := by
  cases v with
  | passed b =>
      obtain ⟨hextends, a, ha, hq⟩ := h
      exact ⟨hextends, a, ha, _, rfl, hq⟩
  | _ => exact h

theorem meets_onSchema {α β : Type} {m : SchemaM D α} {o : Option β}
    {Q : α → β → Tree D → Prop} (h : Meets (outcome m c.store) o (Extends env c.store) Q) :
    Meets (outcome (onSchema m) c) o (Kept env c) (fun a b c' =>
      ∃ t, c' = { c with store := t } ∧ Q a b t) := by
  cases o with
  | none =>
      obtain ⟨hextends, e, he⟩ := h
      exact ⟨hextends, e, he⟩
  | some b =>
      obtain ⟨hextends, a, ha, hq⟩ := h
      exact ⟨hextends, a, ha, _, rfl, hq⟩

theorem outcome_onSchema_load {s : Json D}
    (h : outcome (load p) c.store = (.ok s, c.store)) :
    outcome (onSchema (load p)) c = (.ok s, c) := by
  rw [onSchema, outcome_mk, h]

theorem outcome_withSchema_none (h : c.schema = none) (check : Path → SchemaM D Bool) :
    outcome (withSchema check) c = (.ok true, c) := by
  rw [withSchema, outcome_bind_ok (outcome_get c), h]
  rfl

theorem outcome_withSchema_some (h : c.schema = some p)
    (check : Path → SchemaM D Bool) :
    outcome (withSchema check) c = outcome (onSchema (check p)) c := by
  rw [withSchema, outcome_bind_ok (outcome_get c)]
  simp only [h]

end Primitives

/-- The document cursor is at a node that has no value yet. -/
structure Slot (c : Context D) (p : Path) : Prop where
  cursor : c.cursor = some p
  node : c.json.root.node p = some .undef

theorem Inside.done {c'' : Context D} {j j' : Json D} (h : Inside c p j c')
    (h' : Done c' p j' c'') : Done c p j' c'' where
  root := by
    rw [h'.root, h.root, modify_modify]
    rfl
  parent := fun q hq => (h'.parent q hq).trans (h.parent q hq)
  cursor := h'.cursor.trans (h.parent p (Nat.le_refl _))
  schema := by rw [h'.schema, h.schema]

section Callbacks

variable {place : Option (Place D)}

/-- A check with the schema. -/
theorem ends_withSchema {check : Path → SchemaM D Bool} {f : Place D → Verdict Unit}
    (h : Points env T c place)
    (hcheck : ∀ place : Place D, Holds env T c.store place.sels place.schema →
      Ends (.ok false) (.ok false) (outcome (check (paths place.sels)) c.store) (f place)
        (Extends env c.store) (fun r _ _ => r = true)) :
    Ends (.ok false) (.ok false) (outcome (withSchema check) c) (demand place f)
      (Kept env c) (fun r _ c' => r = true ∧ ∃ t, c' = { c with store := t }) := by
  cases place with
  | none =>
      exact ends_ok (outcome_withSchema_none h check) (Kept.refl env c)
        ⟨rfl, c.store, rfl⟩
  | some place =>
      obtain ⟨hschema, hholds⟩ := h
      rw [outcome_withSchema_some hschema check]
      refine (ends_onSchema (hcheck place hholds)).mono (fun _ h => h) ?_
      rintro r u c' - - ⟨t, rfl, hr⟩
      exact ⟨hr, t, rfl⟩

theorem outcome_getObj_of_ne {j : Json D} (hcursor : c.cursor = some p)
    (hnode : c.json.root.node p = some j) (hj : j.type ≠ .array) :
    outcome (getObj env) c = (.ok (some p), c) := by
  rw [getObj, outcome_bind_ok (outcome_getJson hcursor),
    outcome_bind_ok (outcome_loadJson hnode)]
  cases j with
  | array a => exact absurd rfl hj
  | _ => rfl

theorem Slot.getObj (h : Slot c p) (env : Env D) :
    outcome (getObj env) c = (.ok (some p), c) :=
  outcome_getObj_of_ne h.cursor h.node (by simp [type])

/-- The check of a scalar or of the start of a container. -/
theorem ends_typeCheck {t : Tree D} {place : Place D}
    (h : Holds env T t place.sels place.schema) (kind : Kind) :
    Ends (.ok false) (.ok false) (outcome (do
        validType (env.errHandler (paths place.sels)) (← load (paths place.sels)) kind :
          SchemaM D Bool) t)
      (judgeType env place kind) (Extends env t) (fun r _ _ => r = true) := by
  obtain ⟨s', -, hload, halike, -⟩ := h.node
  apply Ends.step hload
  rw [← halike.validType_eq]
  exact ends_check (Extends.refl env t)

theorem ends_valueCheck {t : Tree D} {place : Place D}
    (h : Holds env T t place.sels place.schema) (value : Json D) :
    Ends (.ok false) (.ok false) (outcome (do
        let n ← load (paths place.sels)
        both (validType (env.errHandler (paths place.sels)) n value.type)
          (validValue env (env.errHandler (paths place.sels)) n value) : SchemaM D Bool) t)
      (judgeValue env place value) (Extends env t) (fun r _ _ => r = true) := by
  obtain ⟨s', -, hload, halike, -⟩ := h.node
  apply Ends.step hload
  rw [← halike.validType_eq, ← halike.validValue_eq]
  exact ends_check (Extends.refl env t)

/-- A value is in its place, and the cursors go up. -/
theorem ends_up {j : Json D} (hcursor : c₁.cursor = some p)
    (hroot : c₁.json.root = c.json.root.modify p fun _ => j)
    (hparent : ∀ q : Path, q.length ≤ p.length → c₁.json.parent q = c.json.parent q)
    (hschema : c₁.schema = c.schema) (hkept : Kept env c c₁) :
    Ends (.ok false) (.ok false)
      (outcome (do setJsonUp; return true : ParserM D Bool) c₁) (passed j) (Kept env c)
      (fun r j c' => r = true ∧ Done c p j c') := by
  apply Ends.step (outcome_setJsonUp hcursor)
  refine ends_pure hkept ⟨rfl, ?_⟩
  exact {
    root := hroot
    parent := hparent
    cursor := hparent p (Nat.le_refl _)
    schema := by rw [hschema] }

theorem ends_parseNull (h : Slot c p) (hs : Points env T c place) :
    Ends (.ok false) (.ok false) (outcome (parseNull env) c) (receive env place .null)
      (Kept env c) (fun r j c' => r = true ∧ Done c p j c') := by
  rw [receive, parseNull]
  apply Ends.step (h.getObj env)
  apply Ends.step (outcome_assertType h.node rfl)
  apply Ends.bind (ends_withSchema hs fun place hholds => ends_typeCheck hholds .undef)
    (fun _ _ => rfl) fun _ _ => rfl
  rintro r u c' - hkept ⟨rfl, t, rfl⟩
  simp only [if_true]
  refine ends_up h.cursor ?_ (fun _ _ => rfl) rfl hkept
  exact (modify_self h.node).symm

theorem ends_parseValue (h : Slot c p) (hs : Points env T c place) (value : Json D) :
    Ends (.ok false) (.ok false) (outcome (parseValue env value) c)
      (receiveValue env place value) (Kept env c)
      (fun r j c' => r = true ∧ Done c p j c') := by
  rw [receiveValue, parseValue]
  apply Ends.step (h.getObj env)
  apply Ends.step (outcome_assertType h.node rfl)
  apply Ends.step (outcome_updateJson _ c)
  have hs' : Points env T { c with json := c.json.modify p fun _ => value } place :=
    hs.mono rfl (Kept.refl env c)
  apply Ends.bind (ends_withSchema hs' fun place hholds => ends_valueCheck hholds value)
    (fun _ _ => rfl) fun _ _ => rfl
  rintro r u c' - hkept ⟨rfl, t, rfl⟩
  simp only [if_true]
  refine ends_up (c := c) ?_ ?_ ?_ ?_ hkept
  · exact h.cursor
  · rfl
  · exact fun _ _ => rfl
  · rfl

theorem ends_parseNumber (h : Slot c p) (hs : Points env T c place) (lexeme : String) :
    Ends (.ok false) (.ok false) (outcome (parseNumber env lexeme) c)
      (receive env place (.number lexeme)) (Kept env c)
      (fun r j c' => r = true ∧ Done c p j c') := by
  rw [receive, parseNumber]
  apply Ends.step (h.getObj env)
  apply Ends.bind_lift (Kept.refl env c)
  intro value hvalue
  apply Ends.step (outcome_updateJson _ c)
  apply Ends.step (outcome_get _)
  cases place with
  | none =>
      have hschema : c.schema = none := hs
      simp only [hschema]
      refine ends_up (c := c) ?_ ?_ ?_ ?_ (Kept.refl env c)
      · exact h.cursor
      · rfl
      · exact fun _ _ => rfl
      · exact hschema.symm
  | some place =>
      obtain ⟨hschema, hholds⟩ := hs
      obtain ⟨s', -, hload, halike, -⟩ := hholds.node
      have hn : ∀ c₁ : Context D, c₁.store = c.store →
          outcome (onSchema (load (paths place.sels))) c₁ = (.ok s', c₁) := by
        intro c₁ hc₁
        rw [onSchema, outcome_mk, hc₁, hload, ← hc₁]
      have hkept : Kept env c { c with
          json := c.json.modify p fun _ => value
          schema := some (paths place.sels) } := Kept.refl env c
      simp only [hschema]
      apply Ends.step (hn { c with
        json := c.json.modify p fun _ => value
        schema := some (paths place.sels) } rfl)
      rw [← halike.validType_eq, ← halike.validValue_eq, ← halike.typeFixup_eq]
      apply Ends.bind_check hkept rfl
      intro _
      simp only [if_true]
      rw [← bind_passed (ofResult (typeFixup env place.schema value))]
      apply Ends.bind_lift hkept
      intro value' _
      apply Ends.step (outcome_updateJson _ _)
      refine ends_up (c := c) ?_ ?_ ?_ ?_ hkept
      · exact h.cursor
      · exact modify_modify c.json.root p _ _
      · exact fun _ _ => rfl
      · exact hschema.symm

/-- The start of a container. -/
theorem ends_parseStart (h : Slot c p) (hs : Points env T c place) (value : Json D) :
    Ends (.ok false) (.ok false) (outcome (parseStart env value) c)
      (demand place fun place => judgeType env place value.type) (Kept env c)
      (fun r _ c' => r = true ∧ Inside c p value c') := by
  rw [parseStart]
  apply Ends.step (h.getObj env)
  apply Ends.step (outcome_assertType h.node rfl)
  apply Ends.step (outcome_updateJson _ c)
  have hs' : Points env T { c with json := c.json.modify p fun _ => value } place :=
    hs.mono rfl (Kept.refl env c)
  rw [← bind_passed (demand place _)]
  apply Ends.bind (ends_withSchema hs' fun place hholds => ends_typeCheck hholds value.type)
    (fun _ _ => rfl) fun _ _ => rfl
  rintro r u c' - hkept ⟨rfl, t, rfl⟩
  simp only [if_true]
  apply Ends.step (outcome_setJson p _)
  exact ends_pure hkept ⟨rfl, rfl, fun _ _ => rfl, rfl, rfl⟩

end Callbacks

/-- A place for a value was made in the container at `p`, which is now `j`. -/
structure Opened (env : Env D) (T : Json D) (c : Context D) (p : Path) (step : Step)
    (j : Json D) (place : Option (Place D)) (c' : Context D) : Prop where
  slot : Slot c' (p ++ [step])
  root : c'.json.root = c.json.root.modify p fun _ => j
  parent : ∀ q : Path, q.length ≤ p.length → c'.json.parent q = c.json.parent q
  up : c'.json.parent (p ++ [step]) = some p
  descends : Descends env T c c' place

/-- The value in its place, the cursors are at the container again. -/
theorem Opened.inside {c'' : Context D} {step : Step} {j v : Json D}
    {place : Option (Place D)} (h : Opened env T c p step j place c')
    (h' : Done c' (p ++ [step]) v c'') (hstore : Kept env c' c'') :
    Inside c p (modifyStep step (fun _ => v) j) c'' where
  root := by
    rw [h'.root, h.root, modify_append, modify_modify]
    rfl
  parent := fun q hq => by
    have hq' : q.length ≤ (p ++ [step]).length := by simp; omega
    rw [h'.parent q hq', h.parent q hq]
  cursor := h'.cursor.trans h.up
  schema := h'.schema.trans (h.descends.up hstore)

section Containers

variable {place : Option (Place D)}

theorem ne_snoc_of_length_le {q : Path} (hq : q.length ≤ p.length) (step : Step) :
    q ≠ p ++ [step] := by
  intro h
  have hlength : q.length = p.length + 1 := by simp [h]
  omega

theorem Descends.of_set {c₁ : Context D} (h : Descends env T c c₁ place)
    (hschema : c'.schema = c₁.schema) (hstore : c'.store = c₁.store) :
    Descends env T c c' place := by
  cases place with
  | none => exact ⟨h.1, hschema.trans h.2⟩
  | some place =>
      obtain ⟨sels, sel, hsels, hplace, hsels', hholds, hlinked⟩ := h
      exact ⟨sels, sel, hsels, hplace, hschema.trans hsels', hstore ▸ hholds,
        hstore ▸ hlinked⟩

/-- A new key in an object. -/
theorem outcome_newKey {o : List (String × Json D)} {k : String}
    (hnode : c.json.root.node p = some (.object o)) (hk : o.lookup k = none) :
    outcome (newKey p k) c =
      (.ok true, { c with json := c.json.addKey p k, cursor := some (p ++ [.key k]) }) := by
  have hkey : (Json.object o).hasKey k = false := by simp [hasKey, member, hk]
  rw [newKey, outcome_bind_ok (outcome_loadJson hnode)]
  simp only [hkey, Bool.false_eq_true, if_false]
  rw [outcome_bind_ok (outcome_updateJson _ c), outcome_bind_ok (outcome_setJson _ _)]
  rfl

theorem outcome_newKey_twice {o : List (String × Json D)} {k : String}
    (hnode : c.json.root.node p = some (.object o)) (hk : (o.lookup k).isSome) :
    ∃ e, outcome (newKey p k) c = (.error e, c) := by
  have hkey : (Json.object o).hasKey k = true := by simpa [hasKey, member] using hk
  rw [newKey, outcome_bind_ok (outcome_loadJson hnode)]
  simp only [hkey, if_true]
  exact ⟨_, outcome_throw _ c⟩

theorem modify_addKey {j : Json D} {o : List (String × Json D)}
    (hnode : j.node p = some (.object o)) (k : String) :
    (j.modify p fun
      | .object o => .object (Assoc.insertKey k .undef o)
      | j => j) = j.modify p fun _ => .object (Assoc.insertKey k .undef o) := by
  apply modify_congr
  intro c hc
  rw [hnode] at hc
  cases hc
  rfl

theorem opened_newKey {o : List (String × Json D)} {k : String}
    (hnode : c.json.root.node p = some (.object o)) (hk : o.lookup k = none)
    (hjson : c₁.json = c.json) (hdescends : Descends env T c c₁ place) :
    Opened env T c p (.key k) (.object (Assoc.insertKey k .undef o)) place
      { c₁ with json := c₁.json.addKey p k, cursor := some (p ++ [.key k]) } := by
  have hroot : (c₁.json.addKey p k).root =
      c.json.root.modify p fun _ => .object (Assoc.insertKey k .undef o) := by
    rw [hjson]
    exact modify_addKey hnode k
  refine ⟨⟨rfl, ?_⟩, hroot, ?_, ?_, hdescends.of_set rfl rfl⟩
  · simp only [hroot, node_modify_append, hnode, Option.bind_some, node, step,
      Assoc.lookup_insertKey hk, if_true]
  · intro q hq
    have hne : q ≠ p ++ [.key k] := ne_snoc_of_length_le hq (.key k)
    simp only [Tree.addKey, Tree.setParent, Tree.modify, if_neg hne, hjson]
  · simp [Tree.addKey, Tree.setParent]

theorem ends_parseMapKey (hset : SetOnSchemas env T) (hcursor : c.cursor = some p)
    {o : List (String × Json D)} (hnode : c.json.root.node p = some (.object o))
    (hs : Points env T c place) (k : String) :
    Ends (.ok false) (.ok false) (outcome (parseMapKey env k) c)
      ((pursue place fun place => judgeKey env place k) >>= fun child =>
        if (o.lookup k).isSome then raised else passed child)
      (Kept env c) (fun r child c' => r = true ∧
        Opened env T c p (.key k) (.object (Assoc.insertKey k .undef o)) child c') := by
  have hnew : ∀ (c₁ : Context D) (child : Option (Place D)), c₁.json = c.json →
      Kept env c c₁ → Descends env T c c₁ child →
      Ends (.ok false) (.ok false) (outcome (newKey p k) c₁)
        (if (o.lookup k).isSome then raised else passed child)
        (Kept env c) (fun r child c' => r = true ∧
          Opened env T c p (.key k) (.object (Assoc.insertKey k .undef o)) child c') := by
    intro c₁ child hjson hkept hdescends
    have hnode₁ : c₁.json.root.node p = some (.object o) := by rw [hjson, hnode]
    cases hk : o.lookup k with
    | none =>
        simp only [Option.isSome_none, Bool.false_eq_true, if_false]
        exact ends_ok (outcome_newKey hnode₁ hk) hkept
          ⟨rfl, opened_newKey hnode hk hjson hdescends⟩
    | some v =>
        simp only [Option.isSome_some, if_true]
        obtain ⟨e, he⟩ := outcome_newKey_twice hnode₁ (k := k) (by simp [hk])
        exact ends_error he hkept
  rw [parseMapKey]
  apply Ends.step (outcome_getJson hcursor)
  apply Ends.step (outcome_assertType hnode rfl)
  apply Ends.step (outcome_get c)
  cases place with
  | none =>
      have hschema : c.schema = none := hs
      simp only [hschema, pursue]
      exact hnew c none rfl (Kept.refl env c) ⟨hschema, hschema⟩
  | some place =>
      obtain ⟨hschema, hholds⟩ := hs
      simp only [hschema, pursue]
      rw [andThen_assoc]
      apply Ends.bind (ends_onSchema (ends_getChildSchema hset hholds k)) (fun _ _ => rfl)
        fun _ _ => rfl
      rintro r child c₁ - hkept ⟨t, rfl, rfl, hholds', sel, hsels, hlinked⟩
      simp only
      apply Ends.step (outcome_setSchema _ _)
      exact hnew _ (some child) rfl hkept
        ⟨place.sels, sel, hschema, hsels, rfl, hholds', hlinked⟩

theorem toInt32_succ_sub (n : ℕ) : toInt32 (toInt32 (n + 1) - 1) = toInt32 n := by
  rw [toInt32, toInt32, Int.bmod_sub_bmod]
  simp [toInt32]

theorem opened_element {a : List (Json D)}
    (hnode : c.json.root.node p = some (.array a))
    (hjson : c₁.json = (c.json.modify p fun _ => .array (a ++ [.undef])).setParent
      (p ++ [.index a.length]) (some p))
    (hdescends : Descends env T c c₁ place) :
    Opened env T c p (.index a.length) (.array (a ++ [.undef])) place
      { c₁ with cursor := some (p ++ [.index a.length]) } := by
  have hroot : c₁.json.root = c.json.root.modify p fun _ => .array (a ++ [.undef]) := by
    rw [hjson]
    rfl
  refine ⟨⟨rfl, ?_⟩, hroot, ?_, ?_, hdescends.of_set rfl rfl⟩
  · simp [hroot, node_modify_append, hnode, node, step]
  · intro q hq
    have hne : q ≠ p ++ [.index a.length] := ne_snoc_of_length_le hq (.index a.length)
    simp only [hjson, Tree.setParent, Tree.modify, if_neg hne]
  · simp [hjson, Tree.setParent]

/-- A new element in an array. -/
theorem ends_getObj (hset : SetOnSchemas env T) (hcursor : c.cursor = some p)
    {a : List (Json D)} (hnode : c.json.root.node p = some (.array a))
    (hs : Points env T c place) :
    Ends (.ok none) (.ok none) (outcome (getObj env) c)
      ((demand place fun place => judgeMaxSize env place (a.length + 1)) >>= fun _ =>
        pursue place fun place => judgeIndex env place (toInt32 a.length))
      (Kept env c) (fun r child c' => r = some (p ++ [.index a.length]) ∧
        Opened env T c p (.index a.length) (.array (a ++ [.undef])) child c') := by
  rw [getObj]
  apply Ends.step (outcome_getJson hcursor)
  apply Ends.step (outcome_loadJson hnode)
  simp only
  apply Ends.step (outcome_updateJson _ c)
  generalize hc₁ : ({ c with
    json := (c.json.modify p fun _ => .array (a ++ [.undef])).setParent
      (p ++ [.index a.length]) (some p) } : Context D) = c₁
  have hjson : c₁.json = (c.json.modify p fun _ => .array (a ++ [.undef])).setParent
      (p ++ [.index a.length]) (some p) := by rw [← hc₁]
  have hstore : c₁.store = c.store := by rw [← hc₁]
  have hschema₁ : c₁.schema = c.schema := by rw [← hc₁]
  have hkept₁ : Kept env c c₁ := Kept.of_store hstore
  apply Ends.step (outcome_get c₁)
  rw [hschema₁]
  cases place with
  | none =>
      have hschema : c.schema = none := hs
      simp only [hschema]
      apply Ends.step (outcome_setJson _ c₁)
      refine ends_pure hkept₁ ⟨rfl, ?_⟩
      exact opened_element hnode hjson ⟨hschema, hschema₁.trans hschema⟩
  | some place =>
      obtain ⟨hschema, hholds⟩ := hs
      have hholds₁ : Holds env T c₁.store place.sels place.schema := hstore ▸ hholds
      obtain ⟨s', -, hload, halike, -⟩ := hholds₁.node
      simp only [hschema, demand, pursue]
      apply Ends.step (outcome_onSchema_load hload)
      rw [← halike.validMaxSize_eq]
      apply Ends.bind_check hkept₁ rfl
      intro _
      simp only [if_true, toInt32_succ_sub]
      have hchild := ends_getChildSchemaAt hset hholds₁ (toInt32 a.length)
      apply Ends.bind (kept_after (ends_onSchema hchild) hkept₁) (fun _ _ => rfl)
        fun _ _ => rfl
      rintro r child c₂ - hkept₂ ⟨t, rfl, rfl, hholds', sel, hsels, hlinked⟩
      simp only
      apply Ends.step (outcome_setSchema _ _)
      apply Ends.step (outcome_setJson _ _)
      refine ends_pure hkept₂ ⟨rfl, ?_⟩
      exact opened_element hnode hjson
        ⟨place.sels, sel, hschema, hsels, rfl, hholds', hlinked⟩

theorem root_addDefaults {t : Tree D} {o : List (String × Json D)}
    (added : List (String × Json D)) (hnode : t.root.node p = some (.object o)) :
    (addDefaults p added t).root =
      t.root.modify p fun _ => .object (addMembers added o) := by
  induction added generalizing t o with
  | nil => exact (modify_self hnode).symm
  | cons m rest ih =>
      have hroot : ((t.addKey p m.1).assign (p ++ [.key m.1]) m.2).root =
          t.root.modify p fun _ => .object
            (Assoc.modifyKey m.1 (fun _ => m.2) (Assoc.insertKey m.1 .undef o)) := by
        simp only [Tree.assign, Tree.addKey, Tree.setParent, Tree.modify, modify_append,
          modify_modify]
        apply modify_congr
        intro c hc
        rw [hnode] at hc
        cases hc
        rfl
      have hnode' : ((t.addKey p m.1).assign (p ++ [.key m.1]) m.2).root.node p =
          some (.object
            (Assoc.modifyKey m.1 (fun _ => m.2) (Assoc.insertKey m.1 .undef o))) := by
        rw [hroot, node_modify, hnode, Option.map_some]
      have hrest := ih hnode'
      rw [hroot, modify_modify] at hrest
      exact hrest

theorem parent_addDefaults (added : List (String × Json D)) (t : Tree D) {q : Path}
    (hq : q.length ≤ p.length) : (addDefaults p added t).parent q = t.parent q := by
  induction added generalizing t with
  | nil => rfl
  | cons m rest ih =>
      have hne : q ≠ p ++ [.key m.1] := ne_snoc_of_length_le hq (.key m.1)
      have hprefix : ¬(p ++ [.key m.1]) <+: q := by
        intro h
        have hlength := h.length_le
        simp only [List.length_append, List.length_singleton] at hlength
        omega
      have hstep : ((t.addKey p m.1).assign (p ++ [.key m.1]) m.2).parent q =
          t.parent q := by
        simp only [Tree.assign, Tree.addKey, Tree.setParent, Tree.modify, if_neg hne,
          if_neg hprefix]
      exact (ih _).trans hstep

/-- The end of an object. -/
theorem ends_parseEndMap (hcursor : c.cursor = some p) {o : List (String × Json D)}
    (hnode : c.json.root.node p = some (.object o)) (hs : Points env T c place) :
    Ends (.ok false) (.ok false) (outcome (parseEndMap env) c) (receiveObject env place o)
      (Kept env c) (fun r j c' => r = true ∧ Done c p j c') := by
  rw [parseEndMap]
  apply Ends.step (outcome_getJson hcursor)
  apply Ends.step (outcome_assertType hnode rfl)
  apply Ends.step (outcome_get c)
  cases place with
  | none =>
      have hschema : c.schema = none := hs
      simp only [hschema, receiveObject]
      refine ends_up hcursor ?_ (fun _ _ => rfl) rfl (Kept.refl env c)
      exact (modify_self hnode).symm
  | some place =>
      obtain ⟨hschema, hholds⟩ := hs
      simp only [hschema, receiveObject, judgeRest]
      rw [← ofOption_value?, ← andThen_assoc, ← ofOption_bind]
      apply Ends.step (outcome_loadJson hnode)
      apply Ends.bind_meets (meets_onSchema (meets_setDefaults hholds (.object o)))
      rintro r added c₁ - hkept₁ ⟨t, rfl, rfl⟩
      apply Ends.step (outcome_updateJson _ _)
      have hholds₁ : Holds env T t place.sels place.schema := hholds.mono hkept₁
      obtain ⟨s', -, hload, halike, hchild⟩ := hholds₁.node
      have hroot := root_addDefaults r hnode
      have hnode₁ : (addDefaults p r c.json).root.node p =
          some (.object (addMembers r o)) := by
        rw [hroot, node_modify, hnode, Option.map_some]
      apply Ends.step (outcome_onSchema_load hload)
      apply Ends.step (outcome_loadJson hnode₁)
      rw [← halike.validRequires_eq hchild]
      refine Ends.bind_check (by exact hkept₁) rfl ?_
      intro _
      simp only [if_true]
      refine ends_up (c := c) ?_ ?_ ?_ ?_ hkept₁
      · exact hcursor
      · exact hroot
      · exact fun q hq => parent_addDefaults r c.json hq
      · rfl

/-- The end of an array. -/
theorem ends_parseEndArray (hset : SetOnSchemas env T) (hcursor : c.cursor = some p)
    {a : List (Json D)} (hnode : c.json.root.node p = some (.array a))
    (hs : Points env T c place) :
    Ends (.ok false) (.ok false) (outcome (parseEndArray env) c)
      ((demand place fun place => judgeMinSize env place a.length) >>= fun _ =>
        passed (.array a))
      (Kept env c) (fun r j c' => r = true ∧ Done c p j c') := by
  rw [parseEndArray]
  apply Ends.step (outcome_getJson hcursor)
  apply Ends.step (outcome_loadJson hnode)
  simp only
  apply Ends.bind (ends_withSchema hs fun place hholds =>
    ends_validMinSize hset hholds a.length (.ok false)) (fun _ _ => rfl) fun _ _ => rfl
  rintro r u c' - hkept ⟨rfl, t, rfl⟩
  simp only [if_true]
  refine ends_up (c := c) ?_ ?_ ?_ ?_ hkept
  · exact hcursor
  · exact (modify_self hnode).symm
  · exact fun _ _ => rfl
  · rfl

end Containers

end Json

end Gearbox
