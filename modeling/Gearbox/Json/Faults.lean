import Gearbox.Json.Copy
import Gearbox.Json.Exceptions
import Gearbox.Json.Links
import Gearbox.Refinement.Fails

/-!
# Checks that do not fail an assertion

A fault is an `assert` that does not hold or a pointer that points nowhere. The checks of a
schema make none as long as the error handlers make none, and the functions that change a
schema make none on a sub-schema that is in the tree. The exception is `getChildSchema` for
an array: where the schema has a list of schemas, it uses a negative index as it is.
-/

namespace Gearbox

namespace Json

open Refinement

variable {D : Type}

/-- An `assert` that does not hold, or the use of a pointer that points nowhere. -/
def Failure.isFault : Failure → Bool
  | .assertion => true
  | .undefined => true
  | _ => false

/-- A computation that does not end with a fault. -/
abbrev Faultless {α : Type} (r : Except Failure α) : Prop :=
  FailsWith (fun e => e.isFault = false) r

theorem isFault_of_isException {e : Failure} (h : e.isException) : e.isFault = false := by
  cases e with
  | json m => rfl
  | std m => rfl
  | _ => cases h

theorem faultless_onErrorThrow (m : String) : Faultless (onErrorThrow m) :=
  failsWith_error rfl

section Values

variable (j : Json D)

theorem faultless_asBool : Faultless j.asBool := by
  cases j with
  | bool b => exact failsWith_ok b
  | _ => exact failsWith_error rfl

theorem faultless_asInt64 : Faultless j.asInt64 := by
  cases j with
  | int n => exact failsWith_ok n
  | _ => exact failsWith_error rfl

theorem faultless_asString : Faultless j.asString := by
  cases j with
  | string v => exact failsWith_ok v
  | _ => exact failsWith_error rfl

theorem faultless_asObject : Faultless j.asObject := by
  cases j with
  | object o => exact failsWith_ok o
  | _ => exact failsWith_error rfl

theorem faultless_copy : Faultless j.copy := by
  rcases copy_cases j with ⟨-, hcopy⟩ | ⟨-, hcopy⟩
  · rw [hcopy]
    exact failsWith_ok j
  · rw [hcopy]
    exact failsWith_error rfl

end Values

section Checks

variable (env : Env D) {h : ErrorHandler} (hh : ∀ m, Faultless (h m)) (s : Json D)

theorem faultless_both {a b : Except Failure Bool} (ha : Faultless a) (hb : Faultless b) :
    Faultless (both a b) :=
  ha.bind fun _ _ => failsWith_ite hb (failsWith_ok false)

theorem faultless_anyMatches (docType : String) (l : List (Json D)) :
    Faultless (anyMatches docType l) := by
  induction l with
  | nil => exact failsWith_ok false
  | cons t rest ih =>
      exact (faultless_asString t).bind fun _ _ => failsWith_ite (failsWith_ok true) ih

theorem faultless_typeListContains (docType : String) (t : Json D) :
    Faultless (typeListContains docType t) := by
  have hsingle : ∀ t : Json D,
      Faultless (do return matchesType docType (← t.asString)) :=
    fun t => (faultless_asString t).bind fun _ _ => failsWith_ok _
  cases t with
  | array a =>
      apply FailsWith.bind (faultless_anyMatches docType _)
      intro found _
      exact failsWith_ite (failsWith_ok true)
        (failsWith_ite (failsWith_ok false) (failsWith_error rfl))
  | _ => exact hsingle _

theorem faultless_fixNumbers (a : List (Json D)) (j : Json D) :
    Faultless (fixNumbers env a j) := by
  induction a generalizing j with
  | nil => exact failsWith_ok j
  | cons t rest ih => exact (faultless_asString t).bind fun type _ => ih _

theorem faultless_typeFixup (j : Json D) : Faultless (typeFixup env s j) := by
  rw [typeFixup]
  split
  · exact failsWith_ok j
  · apply FailsWith.bind (faultless_fixNumbers env _ j)
    intro j' _
    exact failsWith_ite (failsWith_ok j') (failsWith_error rfl)
  · exact (faultless_asString _).bind fun _ _ => failsWith_ok _

theorem faultless_lexNumber (lexeme : String) : Faultless (lexNumber env lexeme) :=
  fun _ he => isFault_of_isException (isException_lexNumber he)

include hh

theorem faultless_validType (kind : Kind) : Faultless (validType h s kind) := by
  have hlist : ∀ t : Json D, Faultless (typeListContains kind.typeToSchemaType t) :=
    faultless_typeListContains kind.typeToSchemaType
  rw [validType]
  split
  · exact failsWith_ok true
  · exact (hlist _).bind fun _ _ => failsWith_ite (failsWith_ok true) (hh _)
  · exact (hlist _).bind fun _ _ => failsWith_ite (hh _) (failsWith_ok true)
  · exact (hlist _).bind fun _ _ => failsWith_ite (failsWith_ok true)
      ((hlist _).bind fun _ _ => failsWith_ite (hh _) (failsWith_ok true))

theorem faultless_validMaxSize (size : ℕ) : Faultless (validMaxSize h s size) := by
  rw [validMaxSize]
  split
  · exact failsWith_ok true
  · exact (faultless_asInt64 _).bind fun _ _ => failsWith_ite (hh _) (failsWith_ok true)

theorem faultless_validMinItems (size : ℕ) : Faultless (validMinItems h s size) := by
  rw [validMinItems]
  split
  · exact failsWith_ok true
  · exact (faultless_asInt64 _).bind fun _ _ => failsWith_ite (hh _) (failsWith_ok true)

theorem faultless_validMinimum (j : Json D) : Faultless (validMinimum env h s j) := by
  rw [validMinimum]
  split
  · exact failsWith_ite (failsWith_ok true) (hh _)
  · exact failsWith_ite (failsWith_ok true) (hh _)
  · exact failsWith_ok true

theorem faultless_validMaximum (j : Json D) : Faultless (validMaximum env h s j) := by
  rw [validMaximum]
  split
  · exact failsWith_ite (failsWith_ok true) (hh _)
  · exact failsWith_ite (failsWith_ok true) (hh _)
  · exact failsWith_ok true

theorem faultless_validMaxDecimal (j : Json D) : Faultless (validMaxDecimal env h s j) := by
  unfold validMaxDecimal
  split
  · exact (faultless_asInt64 _).bind fun _ _ => failsWith_ite (hh _) (failsWith_ok true)
  · exact failsWith_ok true

theorem faultless_validMinLength (j : Json D) : Faultless (validMinLength h s j) := by
  unfold validMinLength
  split
  · exact (faultless_asInt64 _).bind fun _ _ => failsWith_ite (hh _) (failsWith_ok true)
  · exact failsWith_ok true

theorem faultless_validMaxLength (j : Json D) : Faultless (validMaxLength h s j) := by
  unfold validMaxLength
  split
  · exact (faultless_asInt64 _).bind fun _ _ => failsWith_ite (hh _) (failsWith_ok true)
  · exact failsWith_ok true

theorem faultless_validFormat (j : Json D) : Faultless (validFormat env h s j) := by
  have hformat : Faultless (formatOf env s) := by
    rw [formatOf]
    split
    · exact faultless_asString _
    · exact failsWith_ok _
  unfold validFormat
  split
  · apply FailsWith.bind hformat
    intro format _
    refine failsWith_ite (failsWith_ok true) ?_
    split
    · exact failsWith_ok true
    · exact failsWith_ite (failsWith_ok true) (hh _)
  · exact failsWith_ok true

theorem faultless_validPattern (j : Json D) : Faultless (validPattern env h s j) := by
  unfold validPattern
  split
  · apply FailsWith.bind (faultless_asString _)
    intro pattern _
    split
    · exact failsWith_error rfl
    · exact failsWith_ite (failsWith_ok true) (hh _)
  · exact failsWith_ok true

theorem faultless_validEnum (j : Json D) : Faultless (validEnum env h s j) := by
  rw [validEnum]
  split
  · exact failsWith_ok true
  · exact failsWith_ite (failsWith_ok true) (hh _)

theorem faultless_validValue (j : Json D) : Faultless (validValue env h s j) :=
  faultless_both (faultless_validMinimum env hh s j) <|
  faultless_both (faultless_validMaximum env hh s j) <|
  faultless_both (faultless_validMaxDecimal env hh s j) <|
  faultless_both (faultless_validMinLength hh s j) <|
  faultless_both (faultless_validMaxLength hh s j) <|
  faultless_both (faultless_validFormat env hh s j) <|
  faultless_both (faultless_validPattern env hh s j) (faultless_validEnum env hh s j)

theorem faultless_validRequired (object : Json D) (k : String) :
    Faultless (validRequired h object s k) := by
  have hrequire : ∀ req, Faultless (validRequire h object k req) :=
    fun req => failsWith_ite (failsWith_ok true) (hh _)
  have hoptional : Faultless s.isOptional := by
    rw [isOptional]
    split
    · exact faultless_asBool _
    · exact failsWith_ok false
  rw [validRequired]
  apply FailsWith.bind hoptional
  intro optional _
  apply failsWith_ite
  · refine failsWith_ite ?_ (failsWith_ok true)
    split
    · exact hrequire _
    · exact failsWith_allM fun r _ =>
        (faultless_asString r).bind fun req _ => hrequire req
    · exact failsWith_ok true
  · exact failsWith_ite (failsWith_ok true) (hh _)

end Checks

/-- A property that is listed has a schema. -/
theorem isSome_property {s : Json D} {names : List String} {k : String}
    (h : s.properties = .ok names) (hk : k ∈ names) : (s.property k).isSome := by
  rw [properties] at h
  cases hp : s.member "properties" with
  | none =>
      rw [hp] at h
      cases h
      cases hk
  | some p =>
      rw [hp] at h
      cases p with
      | object o =>
          cases h
          rw [property, hp, Option.bind_some]
          simpa [member, Assoc.isSome_lookup] using hk
      | _ => cases h

theorem faultless_properties (s : Json D) : Faultless s.properties := by
  rw [properties]
  split
  · exact failsWith_ok []
  · exact (faultless_asObject _).bind fun _ _ => failsWith_ok _

theorem faultless_validRequires {h : ErrorHandler} (hh : ∀ m, Faultless (h m))
    (s object : Json D) : Faultless (validRequires h s object) := by
  rw [validRequires]
  apply FailsWith.bind (faultless_properties s)
  intro names hproperties
  apply failsWith_allM
  intro k hk
  obtain ⟨p, hp⟩ := Option.isSome_iff_exists.mp (isSome_property hproperties hk)
  rw [validProperty, hp]
  exact faultless_validRequired hh p object k

section Functions

variable {env : Env D} {t t' : Tree D} {this : Path}
  (hh : ∀ p m, Faultless (env.errHandler p m))

include hh

theorem faultless_index (hnode : (t.root.node this).isSome) (k : String) :
    Faultless (outcome (index env this k) t).1 := by
  obtain ⟨j, hj⟩ := Option.isSome_iff_exists.mp hnode
  rw [index]
  refine FailsWith.step (outcome_load hj) ?_
  cases j with
  | object o =>
      dsimp only
      split
      · exact failsWith_ok _
      · exact FailsWith.step (outcome_update _ t) (failsWith_ok _)
  | undef => exact FailsWith.step (outcome_update _ t) (failsWith_ok _)
  | _ => exact FailsWith.call (hh this _) fun _ _ => failsWith_ok _

theorem faultless_create (hnode : (t.root.node this).isSome) :
    Faultless (outcome (getAdditionalProperties.create env this) t).1 := by
  refine FailsWith.seq (faultless_index hh hnode "additionalProperties") ?_
  intro p t₁ hfirst
  refine FailsWith.step (outcome_update _ t₁) ?_
  apply faultless_index hh
  change ((t₁.root.modify p fun _ => anySchema).node this).isSome
  obtain ⟨hp, rfl | ⟨rfl, -⟩⟩ := index_ok hfirst
  · obtain ⟨o, ho, -⟩ := object_of_node_key hp
    rw [modify_append, node_modify, ho]
    rfl
  · rw [node_modify, Option.isSome_map]
    exact hp

theorem faultless_getAdditionalProperties (hnode : (t.root.node this).isSome) :
    Faultless (outcome (getAdditionalProperties env this) t).1 := by
  have hcreate : Faultless (outcome (do
      return some (← getAdditionalProperties.create env this) : SchemaM D (Option Path)) t).1 :=
    FailsWith.seq (faultless_create hh hnode) fun _ _ _ => failsWith_ok _
  obtain ⟨j, hj⟩ := Option.isSome_iff_exists.mp hnode
  rw [getAdditionalProperties]
  refine FailsWith.step (outcome_load hj) ?_
  split
  · exact hcreate
  · exact failsWith_ok _
  · exact failsWith_ok _
  · exact hcreate

/-- The end of `getChildSchema` where only additional properties are left. -/
theorem faultless_absent (addProp : Option Path) (message : String) (t : Tree D) :
    Faultless (outcome
      (match addProp with
        | some p => return some p
        | none => do
          let _ ← env.errHandler this message
          return none : SchemaM D (Option Path)) t).1 := by
  cases addProp with
  | some p => exact failsWith_ok _
  | none => exact FailsWith.call (hh _ _) fun _ _ => failsWith_ok _

end Functions

section InUse

variable {env : Env D} {T s : Json D} {t t' : Tree D} {sels : List Sel}

/-- The tree when `getAdditionalProperties` has returned. -/
theorem Holds.extends_additional (hset : SetOnSchemas env T) (h : Holds env T t sels s)
    {r : Option Path}
    (hout : outcome (getAdditionalProperties env (paths sels)) t = (.ok r, t')) :
    Extends env t t' := by
  rcases h.additional hset with ⟨t₁, hout₁, hextends, -⟩ | ⟨-, -, -, e, hout₁⟩
  · rw [hout] at hout₁
    cases hout₁
    exact hextends
  · rw [hout] at hout₁
    cases hout₁

theorem Holds.isSome_node (h : Holds env T t sels s) :
    (t.root.node (paths sels)).isSome := by
  obtain ⟨s', hreal, -⟩ := h.node
  rw [node_of_real hreal]
  rfl

/-- A schema in use has a list of schemas if the schema that was parsed has one. -/
theorem Alike.isSome_tuple {s' : Json D} (h : Alike env s s') :
    s'.tuple.isSome = s.tuple.isSome := by
  have hitems := h.items
  cases hj : s.member "items" with
  | none =>
      rw [hj, Option.map_none] at hitems
      have hj' : s'.member "items" = none := by simpa using hitems.symm
      simp only [tuple, hj, hj']
  | some j =>
      rw [hj, Option.map_some] at hitems
      obtain ⟨j', hj', hcount⟩ := Option.map_eq_some_iff.mp hitems.symm
      simp [tuple, hj, hj', Option.filter, length_of_count? hcount, apply_ite Option.isSome]

variable (h : Holds env T t sels s)

include h

theorem faultless_setDefault (object : Json D) {k : String}
    (hk : (t.root.real (sels ++ [.property k])).isSome) :
    Faultless (outcome (setDefault env (paths sels) object k) t).1 := by
  obtain ⟨c, -, hchild⟩ := h.child hk
  obtain ⟨s', -, hload, -, -⟩ := hchild.node
  rw [paths_snoc] at hload
  rw [setDefault]
  refine FailsWith.step hload ?_
  split
  · split
    · exact failsWith_ok _
    · refine FailsWith.call (faultless_typeFixup env s' _) fun d _ => ?_
      refine FailsWith.step (outcome_update _ t) ?_
      exact FailsWith.call (faultless_copy d) fun _ _ => failsWith_ok _
  · exact failsWith_ok _

theorem faultless_setDefaultsLoop (object : Json D) {names : List String}
    (hnames : ∀ k ∈ names, (t.root.real (sels ++ [.property k])).isSome) :
    Faultless (outcome (setDefaultsLoop env (paths sels) object names) t).1 := by
  induction names generalizing t with
  | nil => exact failsWith_ok []
  | cons k rest ih =>
      rw [setDefaultsLoop]
      refine FailsWith.seq (faultless_setDefault h object (hnames k List.mem_cons_self)) ?_
      intro added t₁ hadded
      have hextends : Extends env t t₁ := by
        have hmeets := meets_setDefault h object k
        rw [hadded] at hmeets
        exact hmeets.1
      have hrest : ∀ k' ∈ rest, (t₁.root.real (sels ++ [.property k'])).isSome :=
        fun k' hk' => hextends.grows.present _ (hnames k' (List.mem_cons_of_mem k hk'))
      exact FailsWith.seq (ih (h.mono hextends) hrest) fun _ _ _ => failsWith_ok _

theorem faultless_setDefaults (object : Json D) :
    Faultless (outcome (setDefaults env (paths sels) object) t).1 := by
  obtain ⟨s', hreal, hload, -, -⟩ := h.node
  rw [setDefaults]
  refine FailsWith.step hload ?_
  refine FailsWith.call (faultless_properties s') fun names hproperties => ?_
  apply faultless_setDefaultsLoop h object
  intro k hk
  have hproperty := isSome_property hproperties hk
  rw [real_append, hreal]
  simpa [real, realChild, child] using hproperty

/-- A negative index into a list of schemas is used as it is. -/
theorem outcome_getChildSchemaAt_negative (hset : SetOnSchemas env T) {idx : ℤ}
    (htuple : s.tuple.isSome) (hidx : idx < 0) :
    (outcome (getChildSchemaAt env (paths sels) idx) t).1 = .error .undefined := by
  rw [getChildSchemaAt]
  rcases h.additional hset with ⟨t₁, hout, hextends, -⟩ | ⟨hmember, -⟩
  · obtain ⟨s₁, -, hload, halike, -⟩ := (h.mono hextends).node
    rw [outcome_bind_ok hout, outcome_bind_ok hload]
    rw [← halike.isSome_tuple] at htuple
    obtain ⟨j, hj⟩ := Option.isSome_iff_exists.mp htuple
    obtain ⟨hitems, h0⟩ := Option.filter_eq_some_iff.mp hj
    have hlength : 0 ≤ j.length := of_decide_eq_true h0
    have hlt : ¬ j.length ≤ idx := by omega
    simp only [hitems, hlength, hlt, hidx, if_true, if_false]
    rfl
  · simp [tuple, hmember] at htuple

variable (hh : ∀ p m, Faultless (env.errHandler p m))

include hh

theorem faultless_validMinSize (size : ℕ) :
    Faultless (outcome (validMinSize env (paths sels) size) t).1 := by
  obtain ⟨s', -, hload, -, -⟩ := h.node
  rw [validMinSize]
  refine FailsWith.step hload ?_
  refine FailsWith.call (faultless_validMinItems (hh (paths sels)) s' size) fun b _ => ?_
  split
  · split
    · refine FailsWith.seq (faultless_getAdditionalProperties hh h.isSome_node) ?_
      intro addProp t₁ _
      cases addProp with
      | some p => exact failsWith_ok true
      | none =>
          dsimp only
          split
          · exact hh (paths sels) _
          · exact failsWith_ok true
    · exact failsWith_ok true
  · exact failsWith_ok false

variable (hset : SetOnSchemas env T)

include hset

theorem faultless_getChildSchema (k : String) :
    Faultless (outcome (getChildSchema env (paths sels) k) t).1 := by
  rw [getChildSchema]
  refine FailsWith.seq (faultless_getAdditionalProperties hh h.isSome_node) ?_
  intro addProp t₁ hadd
  obtain ⟨s₁, -, hload, -, -⟩ := (h.mono (h.extends_additional hset hadd)).node
  refine FailsWith.step hload ?_
  split
  · split
    · exact FailsWith.step (outcome_update _ t₁) (failsWith_ok _)
    · exact faultless_absent hh addProp _ t₁
  · exact faultless_absent hh addProp _ t₁

/-- The index is not negative where the schema has a list of schemas. -/
theorem faultless_getChildSchemaAt {idx : ℤ} (hidx : s.tuple.isSome → 0 ≤ idx) :
    Faultless (outcome (getChildSchemaAt env (paths sels) idx) t).1 := by
  rw [getChildSchemaAt]
  refine FailsWith.seq (faultless_getAdditionalProperties hh h.isSome_node) ?_
  intro addProp t₁ hadd
  obtain ⟨s₁, -, hload, halike, -⟩ := (h.mono (h.extends_additional hset hadd)).node
  refine FailsWith.step hload ?_
  split
  · rename_i j hj
    split
    · rename_i h0
      split
      · exact faultless_absent hh addProp _ t₁
      · rename_i hlt
        have htuple : s.tuple.isSome := by
          rw [← halike.isSome_tuple]
          simp [tuple, hj, Option.filter, h0]
        have hnonneg : ¬ idx < 0 := Int.not_lt.mpr (hidx htuple)
        rw [if_neg hnonneg]
        exact FailsWith.step (outcome_update _ t₁) (failsWith_ok _)
    · exact failsWith_ok _
  · exact faultless_absent hh addProp _ t₁

end InUse

end Json

end Gearbox
