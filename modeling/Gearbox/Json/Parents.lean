import Gearbox.Json.Parser

/-!
# Parent pointers

Every node of a tree but the root should point to the container that holds it. `Parented`
says so of a `Tree`. What is written to a node keeps it if no node below is new, or if the
pointer of the one that is new is set with it. So the parser keeps it, except where it
fills in a default, since the assignment of a value resets the pointer of the node that
is assigned to.
-/

namespace Gearbox

namespace Json

open Refinement

variable {D : Type}

/-- Every node below `this` points to the container that holds it. -/
def Tree.ParentedBelow (t : Tree D) (this : Path) : Prop :=
  ∀ p s, this <+: p → (t.root.node (p ++ [s])).isSome = true → t.parent (p ++ [s]) = some p

/-- Every node but the root points to the container that holds it. -/
def Tree.Parented (t : Tree D) : Prop :=
  t.ParentedBelow []

section Nodes

/-- A node of a tree that was written to is an old one, or it is at or below the place
that was written to. -/
theorem isSome_node_modify {j : Json D} {p q : Path} {f : Json D → Json D}
    (h : ((modify p f j).node q).isSome = true) :
    (j.node q).isSome = true ∨
      ∃ r c, q = p ++ r ∧ j.node p = some c ∧ ((f c).node r).isSome = true := by
  induction p generalizing j q with
  | nil => exact .inr ⟨q, j, rfl, rfl, h⟩
  | cons s p ih =>
      cases q with
      | nil => exact .inl rfl
      | cons s' q =>
          simp only [modify, node, step_modifyStep] at h
          by_cases hs : s' = s
          · subst hs
            rw [if_pos rfl] at h
            cases hstep : j.step s' with
            | none =>
                rw [hstep] at h
                cases h
            | some c =>
                rw [hstep] at h
                rcases ih (j := c) (q := q) h with hold | ⟨r, c', rfl, hc', hr⟩
                · left
                  simpa [node, hstep] using hold
                · right
                  exact ⟨r, c', rfl, by simpa [node, hstep] using hc', hr⟩
          · rw [if_neg hs] at h
            exact .inl h

/-- Nothing that is not a container has nodes below. -/
theorem node_concat_scalar {j : Json D} (h : ∀ s, j.step s = none) (r : Path) (s : Step) :
    j.node (r ++ [s]) = none := by
  cases r with
  | nil => simp [node, h s]
  | cons s' r => simp [node, h s']

theorem node_lookup {o : List (String × Json D)} {k : String} {r : Path} :
    (object o).node (.key k :: r) = (o.lookup k).bind fun c => c.node r := rfl

theorem node_getElem {a : List (Json D)} {i : ℕ} {r : Path} :
    (array a).node (.index i :: r) = a[i]?.bind fun c => c.node r := rfl

end Nodes

section Writes

variable {t : Tree D} {this p : Path} {f : Json D → Json D}

/-- A write that makes no new nodes below the place. -/
theorem Tree.ParentedBelow.modify (h : t.ParentedBelow this)
    (hf : ∀ c, t.root.node p = some c → ∀ r s, ((f c).node (r ++ [s])).isSome = true →
      (c.node (r ++ [s])).isSome = true) : (t.modify p f).ParentedBelow this := by
  intro q s hq₀ hnode
  rcases isSome_node_modify hnode with hold | ⟨r, c, hq, hc, hr⟩
  · exact h q s hq₀ hold
  · refine h q s hq₀ ?_
    rcases List.eq_nil_or_concat r with rfl | ⟨r', s', rfl⟩
    · rw [List.append_nil] at hq
      rw [hq, hc]
      rfl
    · rw [List.concat_eq_append] at hq hr
      rw [hq, node_append, hc]
      exact hf c hc r' s' hr

/-- A write of something without nodes below. -/
theorem Tree.ParentedBelow.setData (h : t.ParentedBelow this) {j : Json D}
    (hj : ∀ s, j.step s = none) : (t.modify p fun _ => j).ParentedBelow this := by
  refine h.modify fun c _ r s hr => ?_
  rw [node_concat_scalar hj] at hr
  cases hr

/-- A write that makes one new node below the place, which has none below itself. -/
theorem Tree.ParentedBelow.grow (h : t.ParentedBelow this) {s : Step}
    (hf : ∀ c, t.root.node p = some c → ∀ r s', ((f c).node (r ++ [s'])).isSome = true →
      (c.node (r ++ [s'])).isSome = true ∨ r ++ [s'] = [s]) :
    ((t.modify p f).setParent (p ++ [s]) (some p)).ParentedBelow this := by
  intro q s' hq₀ hnode
  have hnew : ∀ r, q ++ [s'] = p ++ r → r = [s] →
      ((t.modify p f).setParent (p ++ [s]) (some p)).parent (q ++ [s']) = some q := by
    intro r hq hr
    subst hr
    obtain ⟨rfl, hs⟩ := List.append_inj' hq rfl
    cases hs
    exact if_pos rfl
  by_cases hq : q ++ [s'] = p ++ [s]
  · exact hnew [s] hq rfl
  · change (if q ++ [s'] = p ++ [s] then some p else t.parent (q ++ [s'])) = some q
    rw [if_neg hq]
    rcases isSome_node_modify hnode with hold | ⟨r, c, hq', hc, hr⟩
    · exact h q s' hq₀ hold
    · refine h q s' hq₀ ?_
      rcases List.eq_nil_or_concat r with rfl | ⟨r', s'', rfl⟩
      · rw [List.append_nil] at hq'
        rw [hq', hc]
        rfl
      · rw [List.concat_eq_append] at hq' hr
        rcases hf c hc r' s'' hr with hold | hone
        · rw [hq', node_append, hc]
          exact hold
        · rw [hone] at hq'
          exact absurd hq' hq

theorem Tree.ParentedBelow.addKey (h : t.ParentedBelow this) {k : String}
    (hk : ∀ o, t.root.node p = some (.object o) → o.lookup k = none) :
    (t.addKey p k).ParentedBelow this := by
  refine h.grow fun c hc r s' hr => ?_
  cases c with
  | object o =>
      have hnew : ∀ r', ((object (Assoc.insertKey k undef o)).node (.key k :: r')).isSome =
          true → r' = [] := by
        intro r' hr'
        rw [node_lookup, Assoc.lookup_insertKey (hk o hc), if_pos rfl, Option.bind_some] at hr'
        cases r' with
        | nil => rfl
        | cons s r' => cases hr'
      have hother : ∀ s r', s ≠ .key k →
          (object (Assoc.insertKey k undef o)).node (s :: r') = (object o).node (s :: r') := by
        intro s r' hs
        cases s with
        | index i => rfl
        | key k' =>
            have hk' : k' ≠ k := fun heq => hs (by rw [heq])
            rw [node_lookup, node_lookup, Assoc.lookup_insertKey_of_ne hk']
      cases hpath : r ++ [s'] with
      | nil => simp at hpath
      | cons s₁ r₁ =>
          change ((object (Assoc.insertKey k undef o)).node (r ++ [s'])).isSome = true at hr
          rw [hpath] at hr
          by_cases hs : s₁ = .key k
          · subst hs
            right
            rw [hnew r₁ hr]
          · left
            rwa [hother s₁ r₁ hs] at hr
  | _ => exact .inl hr

/-- A new element at the end of an array. -/
theorem Tree.ParentedBelow.pushBack (h : t.ParentedBelow this) {a : List (Json D)}
    (ha : t.root.node p = some (.array a)) :
    ((t.modify p fun _ => .array (a ++ [.undef])).setParent (p ++ [.index a.length])
      (some p)).ParentedBelow this := by
  refine h.grow fun c hc r s' hr => ?_
  rw [ha] at hc
  cases hc
  cases hpath : r ++ [s'] with
  | nil => simp at hpath
  | cons s₁ r₁ =>
      rw [hpath] at hr
      cases s₁ with
      | key k => cases hr
      | index i =>
          rw [node_getElem] at hr
          rcases Nat.lt_trichotomy i a.length with hi | rfl | hi
          · left
            rw [List.getElem?_append_left hi] at hr
            exact hr
          · right
            rw [List.getElem?_append_right (Nat.le_refl _), Nat.sub_self] at hr
            cases r₁ with
            | nil => rfl
            | cons s₂ r₂ => cases hr
          · rw [List.getElem?_eq_none (by simp; omega)] at hr
            cases hr

end Writes

section Callbacks

variable {env : Env D} {schemaless : Prop} {top : Option Path}

/-- The pointers of the document are right, and its root has the same parent all the time.
A parse that has no schema gets none. -/
structure Context.Parented (schemaless : Prop) (top : Option Path) (c : Context D) :
    Prop where
  json : c.json.Parented
  root : c.json.parent [] = top
  schema : schemaless → c.schema = none

theorem keeps_get : Keeps (Context.Parented schemaless top) (get : ParserM D (Context D)) :=
  fun _ h => h

/-- What follows may use the context. -/
theorem keeps_get_bind {α : Type} {f : Context D → ParserM D α}
    (hf : ∀ c : Context D, c.Parented schemaless top →
      (outcome (f c) c).2.Parented schemaless top) :
    Keeps (Context.Parented schemaless top) (get >>= f) :=
  fun c h => hf c h

/-- The parent that is set is not that of the root. -/
theorem Context.Parented.root_setParent {c : Context D} {p : Path} {s : Step}
    {f : Json D → Json D} (h : c.Parented schemaless top) :
    ((c.json.modify p f).setParent (p ++ [s]) (some p)).parent [] = top := by
  rw [← h.root]
  exact if_neg (by simp)

theorem Context.Parented.of_schema {c : Context D} {s : Path} (h : c.Parented schemaless top)
    (hs : c.schema = some s) : ¬ schemaless := by
  intro hless
  rw [h.schema hless] at hs
  cases hs

theorem keeps_getJson : Keeps (Context.Parented schemaless top) (getJson : ParserM D Path) := by
  refine Keeps.bind keeps_get fun c => ?_
  cases c.cursor with
  | none => exact keeps_throw _
  | some p => exact keeps_pure p

theorem keeps_setJson (p : Path) :
    Keeps (Context.Parented schemaless top) (setJson p : ParserM D Unit) :=
  fun _ h => ⟨h.json, h.root, h.schema⟩

theorem keeps_setSchema (h : ¬ schemaless) (p : Path) :
    Keeps (Context.Parented schemaless top) (setSchema p : ParserM D Unit) :=
  fun _ hc => ⟨hc.json, hc.root, fun hless => absurd hless h⟩

theorem keeps_setSchemaUp :
    Keeps (Context.Parented schemaless top) (setSchemaUp : ParserM D Unit) := by
  refine fun c h => ⟨h.json, h.root, fun hless => ?_⟩
  change c.schema.bind c.store.parent = none
  rw [h.schema hless, Option.bind_none]

theorem keeps_setJsonUp :
    Keeps (Context.Parented schemaless top) (setJsonUp : ParserM D Unit) :=
  Keeps.bind keeps_getJson fun _ =>
    Keeps.bind (fun _ h => ⟨h.json, h.root, h.schema⟩) fun _ => keeps_setSchemaUp

theorem keeps_onSchema {α : Type} (m : SchemaM D α) :
    Keeps (Context.Parented schemaless top) (onSchema m) :=
  fun _ h => ⟨h.json, h.root, h.schema⟩

theorem keeps_loadJson (p : Path) :
    Keeps (Context.Parented schemaless top) (loadJson p : ParserM D (Json D)) := by
  refine Keeps.bind keeps_get fun c => ?_
  cases c.json.root.node p with
  | none => exact keeps_throw _
  | some j => exact keeps_pure j

theorem keeps_withSchema (check : Path → SchemaM D Bool) :
    Keeps (Context.Parented schemaless top) (withSchema check) := by
  refine Keeps.bind keeps_get fun c => ?_
  cases c.schema with
  | none => exact keeps_pure true
  | some s => exact keeps_onSchema (check s)

theorem keeps_assertType (p : Path) (kind : Kind) :
    Keeps (Context.Parented schemaless top) (assertType p kind : ParserM D Unit) := by
  refine Keeps.bind (keeps_loadJson p) fun j => ?_
  split
  · exact keeps_pure ()
  · exact keeps_throw _

theorem keeps_setData (p : Path) {j : Json D} (hj : ∀ s, j.step s = none) :
    Keeps (Context.Parented schemaless top) (setData p j) :=
  fun _ h => ⟨h.json.setData hj, h.root, h.schema⟩

theorem loadJson_ok {p : Path} {c c' : Context D} {j : Json D}
    (h : outcome (loadJson p : ParserM D (Json D)) c = (.ok j, c')) :
    c' = c ∧ c.json.root.node p = some j := by
  unfold loadJson at h
  rw [outcome_bind_ok (outcome_get c)] at h
  cases hnode : c.json.root.node p with
  | none =>
      rw [hnode] at h
      cases h
  | some i =>
      rw [hnode] at h
      cases h
      exact ⟨rfl, rfl⟩

theorem getJson_ok {p : Path} {c c' : Context D}
    (h : outcome (getJson : ParserM D Path) c = (.ok p, c')) :
    c' = c ∧ c.cursor = some p := by
  unfold getJson at h
  rw [outcome_bind_ok (outcome_get c)] at h
  cases hcursor : c.cursor with
  | none =>
      rw [hcursor] at h
      cases h
  | some q =>
      rw [hcursor] at h
      cases h
      exact ⟨rfl, rfl⟩

theorem assertType_ok {p : Path} {kind : Kind} {c c' : Context D}
    (h : outcome (assertType p kind : ParserM D Unit) c = (.ok (), c')) : c' = c := by
  obtain ⟨j, c₁, hload, hrest⟩ := exists_of_bind h
  obtain ⟨rfl, -⟩ := loadJson_ok hload
  split at hrest
  · cases hrest
    rfl
  · cases hrest

theorem outcome_updateJson_bind {α : Type} (f : Tree D → Tree D) (g : Unit → ParserM D α)
    (c : Context D) :
    outcome (updateJson f >>= g) c = outcome (g ()) { c with json := f c.json } :=
  outcome_bind_ok rfl

theorem keeps_getObj : Keeps (Context.Parented schemaless top) (getObj env) := by
  refine Keeps.bind keeps_getJson fun cur => ?_
  refine (keeps_loadJson cur).bind_outcome fun c j c' hc hload _ => ?_
  obtain ⟨rfl, hnode⟩ := loadJson_ok hload
  cases j with
  | array a =>
      dsimp only
      rw [outcome_updateJson_bind]
      have hnext : ∀ f : Context D → ParserM D (Option Path),
          (∀ c, c.Parented schemaless top → (outcome (f c) c).2.Parented schemaless top) →
            Keeps (Context.Parented schemaless top) (get >>= f) := fun f => keeps_get_bind
      refine hnext _ (fun c₁ hc₁ => ?_) _ ⟨hc.json.pushBack hnode, hc.root_setParent, hc.schema⟩
      cases hs : c₁.schema with
      | none => exact Keeps.bind (keeps_setJson _) (fun _ => keeps_pure _) _ hc₁
      | some s =>
          have hschema := hc₁.of_schema hs
          refine Keeps.bind (keeps_onSchema _)
            (fun n => Keeps.bind (keeps_lift _) fun b => ?_) _ hc₁
          split
          · refine Keeps.bind (keeps_onSchema _) fun child => ?_
            cases child with
            | none => exact keeps_pure _
            | some q =>
                exact Keeps.bind (keeps_setSchema hschema q) fun _ =>
                  Keeps.bind (keeps_setJson _) fun _ => keeps_pure _
          · exact keeps_pure _
  | _ => exact hc

/-- The end of a callback for a value. -/
theorem keeps_goUp : Keeps (Context.Parented schemaless top)
    (do setJsonUp; return true : ParserM D Bool) :=
  Keeps.bind keeps_setJsonUp fun _ => keeps_pure true

theorem keeps_parseNull : Keeps (Context.Parented schemaless top) (parseNull env) := by
  refine Keeps.bind keeps_getObj fun cur => ?_
  cases cur with
  | none => exact keeps_pure false
  | some cur =>
      refine Keeps.bind (keeps_assertType _ _) fun _ =>
        Keeps.bind (keeps_withSchema _) fun b => ?_
      split
      · exact keeps_goUp
      · exact keeps_pure false

theorem keeps_parseValue {value : Json D} (hvalue : ∀ s, value.step s = none) :
    Keeps (Context.Parented schemaless top) (parseValue env value) := by
  refine Keeps.bind keeps_getObj fun cur => ?_
  cases cur with
  | none => exact keeps_pure false
  | some cur =>
      refine Keeps.bind (keeps_assertType _ _) fun _ =>
        Keeps.bind (keeps_setData _ hvalue) fun _ =>
        Keeps.bind (keeps_withSchema _) fun b => ?_
      split
      · exact keeps_goUp
      · exact keeps_pure false

theorem step_lexNumber {lexeme : String} {j : Json D} (h : lexNumber env lexeme = .ok j)
    (s : Step) : j.step s = none := by
  unfold lexNumber at h
  split at h <;> split at h
  · cases h
    rfl
  · cases h
  · cases h
    rfl
  · cases h

theorem step_fixNumber (type : String) {j : Json D} (h : ∀ s, j.step s = none) (s : Step) :
    (fixNumber env type j).step s = none := by
  cases j with
  | int n =>
      rw [fixNumber]
      split <;> rfl
  | _ => exact h s

theorem step_fixNumbers {a : List (Json D)} {j j' : Json D} (h : ∀ s, j.step s = none)
    (hj' : fixNumbers env a j = .ok j') (s : Step) : j'.step s = none := by
  induction a generalizing j with
  | nil =>
      cases hj'
      exact h s
  | cons t rest ih =>
      rw [fixNumbers] at hj'
      cases htype : t.asString with
      | error e =>
          rw [htype] at hj'
          cases hj'
      | ok type =>
          rw [htype] at hj'
          exact ih (step_fixNumber type h) hj'

/-- A number is a number of another type. -/
theorem step_typeFixup {s j j' : Json D} (h : ∀ s, j.step s = none)
    (hj' : typeFixup env s j = .ok j') (step : Step) : j'.step step = none := by
  unfold typeFixup at hj'
  split at hj'
  · cases hj'
    exact h step
  · rename_i a _
    cases hfix : fixNumbers env (a.take (2 ^ 32)) j with
    | error e =>
        rw [hfix] at hj'
        cases hj'
    | ok i =>
        rw [hfix, ok_bind] at hj'
        split at hj'
        · cases hj'
          exact step_fixNumbers h hfix step
        · cases hj'
  · rename_i t _ _
    cases htype : t.asString with
    | error e =>
        rw [htype] at hj'
        cases hj'
    | ok type =>
        rw [htype] at hj'
        cases hj'
        exact step_fixNumber type h step

/-- What follows may use that a call without a state returned. -/
theorem keeps_lift_bind {α β : Type} {r : Except Failure α} {f : α → ParserM D β}
    (hf : ∀ a, r = .ok a → Keeps (Context.Parented schemaless top) (f a)) :
    Keeps (Context.Parented schemaless top) ((liftM r : ParserM D α) >>= f) := by
  cases r with
  | error e => exact fun c h => h
  | ok a => exact fun c h => hf a rfl c h

theorem keeps_parseNumber (lexeme : String) :
    Keeps (Context.Parented schemaless top) (parseNumber env lexeme) := by
  refine Keeps.bind keeps_getObj fun cur => ?_
  cases cur with
  | none => exact keeps_pure false
  | some cur =>
      refine keeps_lift_bind fun value hvalue => ?_
      have hscalar := step_lexNumber hvalue
      refine Keeps.bind (keeps_setData _ hscalar) fun _ => Keeps.bind keeps_get fun c => ?_
      cases c.schema with
      | none => exact keeps_goUp
      | some s =>
          refine Keeps.bind (keeps_onSchema _) fun n => Keeps.bind (keeps_lift _) fun b => ?_
          split
          · refine keeps_lift_bind fun fixed hfixed => ?_
            exact Keeps.bind (keeps_setData _ (step_typeFixup hscalar hfixed))
              fun _ => keeps_goUp
          · exact keeps_pure false

theorem keeps_parseStart {value : Json D} (hvalue : ∀ s, value.step s = none) :
    Keeps (Context.Parented schemaless top) (parseStart env value) := by
  refine Keeps.bind keeps_getObj fun cur => ?_
  cases cur with
  | none => exact keeps_pure false
  | some cur =>
      refine Keeps.bind (keeps_assertType _ _) fun _ =>
        Keeps.bind (keeps_setData _ hvalue) fun _ =>
        Keeps.bind (keeps_withSchema _) fun b => ?_
      split
      · exact Keeps.bind (keeps_setJson _) fun _ => keeps_pure true
      · exact keeps_pure false

theorem keeps_newKey (cur : Path) (name : String) :
    Keeps (Context.Parented schemaless top) (newKey cur name : ParserM D Bool) := by
  refine (keeps_loadJson cur).bind_outcome fun c j c' hc hload _ => ?_
  obtain ⟨rfl, hnode⟩ := loadJson_ok hload
  split
  · exact hc
  · rename_i hkey
    have hadd : Tree.Parented (c'.json.addKey cur name) := by
      refine Tree.ParentedBelow.addKey hc.json fun o ho => ?_
      rw [hnode] at ho
      cases ho
      exact Option.not_isSome_iff_eq_none.mp hkey
    rw [outcome_updateJson_bind]
    exact Keeps.bind (P := Context.Parented schemaless top) (keeps_setJson _)
      (fun _ => keeps_pure true) _ ⟨hadd, hc.root_setParent, hc.schema⟩

theorem keeps_parseMapKey (name : String) :
    Keeps (Context.Parented schemaless top) (parseMapKey env name) := by
  refine Keeps.bind keeps_getJson fun cur => Keeps.bind (keeps_assertType _ _) fun _ =>
    keeps_get_bind fun c hc => ?_
  cases hs : c.schema with
  | none => exact keeps_newKey cur name c hc
  | some s =>
      have hschema := hc.of_schema hs
      refine Keeps.bind (keeps_onSchema _) (fun child => ?_) c hc
      cases child with
      | none => exact keeps_pure false
      | some q =>
          exact Keeps.bind (keeps_setSchema hschema q) fun _ => keeps_newKey cur name

theorem keeps_parseEndArray : Keeps (Context.Parented schemaless top) (parseEndArray env) := by
  refine Keeps.bind keeps_getJson fun cur => Keeps.bind (keeps_loadJson cur) fun j => ?_
  cases j with
  | array a =>
      refine Keeps.bind (keeps_withSchema _) fun b => ?_
      split
      · exact keeps_goUp
      · exact keeps_pure false
  | _ => exact keeps_throw _

/-- The object at the cursor lacks a property for which the schema has a default. When
the object ends, the default is filled in. -/
def Context.Fills (c : Context D) : Prop :=
  ∃ cur s object schema k, c.cursor = some cur ∧ c.schema = some s ∧
    c.json.root.node cur = some object ∧ c.store.root.node s = some schema ∧
    ((schema.property k).bind fun p => p.member "default").isSome = true ∧
    object.hasKey k = false

theorem outcome_load_ok {p : Path} {t t' : Tree D} {j : Json D}
    (h : outcome (load p : SchemaM D (Json D)) t = (.ok j, t')) :
    t' = t ∧ t.root.node p = some j := by
  unfold load at h
  rw [outcome_mk] at h
  cases hnode : t.root.node p with
  | none =>
      rw [hnode] at h
      cases h
  | some i =>
      rw [hnode] at h
      cases h
      exact ⟨rfl, rfl⟩

section Defaults

variable {this : Path} {object schema : Json D} {t t' : Tree D}
  {added : List (String × Json D)}

/-- Nothing is added for a property that the object has. -/
theorem setDefault_ok {k : String} (hnode : t.root.node this = some schema)
    (hkey : ((schema.property k).bind fun p => p.member "default").isSome = true →
      object.hasKey k = true)
    (h : outcome (setDefault env this object k) t = (.ok added, t')) :
    added = [] ∧ t' = t := by
  obtain ⟨p, t₁, hload, hrest⟩ := exists_of_bind h
  obtain ⟨rfl, hp⟩ := outcome_load_ok hload
  have hproperty : schema.property k = some p := by
    rw [node_append, hnode, Option.bind_some] at hp
    simpa [node, property, step_key, Option.bind_eq_some_iff] using hp
  rw [hproperty, Option.bind_some] at hkey
  cases hdefault : p.member "default" with
  | none =>
      rw [hdefault] at hrest
      cases hrest
      exact ⟨rfl, rfl⟩
  | some d =>
      rw [hdefault] at hrest hkey
      dsimp only at hrest
      rw [if_pos (hkey rfl)] at hrest
      cases hrest
      exact ⟨rfl, rfl⟩

theorem setDefaultsLoop_ok (hnode : t.root.node this = some schema)
    (hkeys : ∀ k, ((schema.property k).bind fun p => p.member "default").isSome = true →
      object.hasKey k = true) (ks : List String)
    (h : outcome (setDefaultsLoop env this object ks) t = (.ok added, t')) :
    added = [] := by
  induction ks generalizing added t' with
  | nil =>
      cases h
      rfl
  | cons k rest ih =>
      obtain ⟨first, t₁, hfirst, hothers⟩ := exists_of_bind h
      obtain ⟨rfl, rfl⟩ := setDefault_ok hnode (hkeys k) hfirst
      obtain ⟨others, t₂, hrest, hadded⟩ := exists_of_bind hothers
      cases hadded
      exact ih hrest

/-- Nothing is added to an object that has all the properties with a default. -/
theorem setDefaults_ok (hkeys : ∀ schema, t.root.node this = some schema → ∀ k,
      ((schema.property k).bind fun p => p.member "default").isSome = true →
      object.hasKey k = true)
    (h : outcome (setDefaults env this object) t = (.ok added, t')) : added = [] := by
  obtain ⟨s, t₁, hload, hrest⟩ := exists_of_bind h
  obtain ⟨rfl, hs⟩ := outcome_load_ok hload
  obtain ⟨ks, t₂, hproperties, hloop⟩ := exists_of_bind hrest
  obtain ⟨-, rfl⟩ := Prod.mk.inj hproperties
  exact setDefaultsLoop_ok hs (hkeys s hs) ks hloop

end Defaults

/-- The end of an object to which nothing is added. -/
theorem parented_parseEndMap {c : Context D} (hc : c.Parented schemaless top)
    (hfills : ¬ c.Fills) : (outcome (parseEndMap env) c).2.Parented schemaless top := by
  refine kept_bind (keeps_getJson c hc) fun cur c₁ hcur => ?_
  obtain ⟨rfl, hcursor⟩ := getJson_ok hcur
  refine kept_bind (keeps_assertType _ _ c₁ hc) fun _ c₂ hassert => ?_
  obtain rfl := assertType_ok hassert
  refine kept_bind (keeps_get c₂ hc) fun c₃ c₄ hget => ?_
  cases hget
  cases hs : c₂.schema with
  | none => exact keeps_goUp c₂ hc
  | some s =>
      refine kept_bind (keeps_loadJson cur c₂ hc) fun object c₃ hload => ?_
      obtain ⟨rfl, hnode⟩ := loadJson_ok hload
      refine kept_bind (keeps_onSchema _ c₃ hc) fun added c₄ hadded => ?_
      have hnil : added = [] := by
        have hdefaults : outcome (setDefaults env s object) c₃.store = (.ok added, c₄.store) := by
          rw [onSchema, outcome_mk, Prod.mk.injEq] at hadded
          obtain ⟨hok, rfl⟩ := hadded
          exact Prod.ext hok rfl
        refine setDefaults_ok (fun schema hschema k hdefault => ?_) hdefaults
        by_contra hkey
        exact hfills ⟨cur, s, object, schema, k, hcursor, hs, hnode, hschema, hdefault,
          Bool.eq_false_iff.mpr hkey⟩
      subst hnil
      have hc₄ : c₄.Parented schemaless top := by
        have h := keeps_onSchema (setDefaults env s object) c₃ hc
        rwa [hadded] at h
      have hsame : Keeps (Context.Parented schemaless top)
          (updateJson (addDefaults cur []) : ParserM D Unit) :=
        fun _ h => ⟨h.json, h.root, h.schema⟩
      refine Keeps.bind hsame (fun _ => Keeps.bind (keeps_onSchema _) fun _ =>
        Keeps.bind (keeps_loadJson cur) fun _ =>
        Keeps.bind (keeps_lift _) fun b => ?_) c₄ hc₄
      split
      · exact keeps_goUp
      · exact keeps_pure false

/-- One event. -/
theorem parented_callback {c : Context D} (e : Event) (hc : c.Parented schemaless top)
    (hfills : e = .endMap → ¬ c.Fills) :
    (outcome (callback env e) c).2.Parented schemaless top := by
  cases e with
  | null => exact keeps_parseNull c hc
  | boolean b => exact keeps_parseValue (fun _ => rfl) c hc
  | number lexeme => exact keeps_parseNumber lexeme c hc
  | string v => exact keeps_parseValue (fun _ => rfl) c hc
  | startMap =>
      refine keeps_parseStart (fun s => ?_) c hc
      cases s <;> rfl
  | mapKey k => exact keeps_parseMapKey k c hc
  | endMap => exact parented_parseEndMap hc (hfills rfl)
  | startArray =>
      refine keeps_parseStart (fun s => ?_) c hc
      cases s <;> rfl
  | endArray => exact keeps_parseEndArray c hc

/-- A default is filled in at some of the events. -/
def FillsAt (env : Env D) (es : List Event) (c : Context D) : Prop :=
  ∃ before after c', es = before ++ .endMap :: after ∧
    outcome (feed env before) c = (.ok (), c') ∧ c'.Fills

/-- All events. -/
theorem parented_feed {c : Context D} (es : List Event) (hc : c.Parented schemaless top)
    (hfills : ¬ FillsAt env es c) :
    (outcome (feed env es) c).2.Parented schemaless top := by
  induction es generalizing c with
  | nil => exact hc
  | cons e rest ih =>
      have hfirst : (outcome (callback env e) c).2.Parented schemaless top := by
        refine parented_callback e hc fun he hfill => hfills ?_
        exact ⟨[], rest, c, by rw [he]; rfl, rfl, hfill⟩
      rw [feed]
      refine kept_bind hfirst fun b c₁ hcallback => ?_
      rw [hcallback] at hfirst
      cases b with
      | false => exact hfirst
      | true =>
          refine ih hfirst ?_
          rintro ⟨before, after, c₂, rfl, hbefore, hfill⟩
          refine hfills ⟨e :: before, after, c₂, rfl, ?_, hfill⟩
          rw [feed, outcome_bind_ok hcallback]
          exact hbefore

theorem Context.Parented.not_fills {c : Context D} (hc : c.Parented True top) : ¬ c.Fills := by
  rintro ⟨cur, s, object, schema, k, -, hs, -⟩
  exact hc.of_schema hs trivial

/-- Nothing is filled in without a schema. -/
theorem Context.Parented.not_fillsAt {c : Context D} (hc : c.Parented True top)
    (es : List Event) : ¬ FillsAt env es c := by
  rintro ⟨before, after, c', rfl, hbefore, hfill⟩
  induction before generalizing c with
  | nil =>
      cases hbefore
      exact hc.not_fills hfill
  | cons e rest ih =>
      rw [feed, outcome_bind] at hbefore
      have hfirst : (outcome (callback env e) c).2.Parented True top :=
        parented_callback e hc fun _ => hc.not_fills
      cases hcallback : outcome (callback env e) c with
      | mk r c₁ =>
          rw [hcallback] at hbefore hfirst
          cases r with
          | error x => cases hbefore
          | ok b =>
              cases b with
              | false => cases hbefore
              | true => exact ih hfirst hbefore

/-- The events of a text: all of its document, or those up to the error. -/
def Text.events : Text → List Event
  | .document doc => doc.events
  | .broken doc n => doc.events.take n

/-- A whole parse. -/
theorem parented_parseText {c : Context D} (text : Text) (hc : c.Parented schemaless top)
    (hfills : ¬ FillsAt env text.events c) :
    (outcome (parseText env text) c).2.Parented schemaless top := by
  have hfeed := parented_feed text.events hc hfills
  cases text with
  | document doc => exact hfeed
  | broken doc n =>
      refine kept_bind hfeed fun _ c₁ hc₁ => ?_
      rw [Text.events, hc₁] at hfeed
      exact hfeed

end Callbacks

end Json

end Gearbox
