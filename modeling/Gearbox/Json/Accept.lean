import Gearbox.Assoc.Sorted
import Gearbox.Json.Checks
import Gearbox.Json.Order
import Gearbox.Json.Text

/-!
# Acceptance by a schema

A schema with one type, which is not `"number"`, leaves every value that it accepts as it is,
and the two orders of work accept the same values. An object is accepted if every member is
accepted by the schema of its key and no required property is missing, and an array if every
element is accepted by the schema of the items.
-/

namespace Gearbox

namespace Json

open Refinement

variable {D : Type}

/-- The schema makes a value of the value. -/
def Allows (env : Env D) (order : Order D) (s j : Json D) : Prop :=
  (conform env order s j).isSome

/-- The type of the schema is the only one, and its values are not converted. -/
structure OneType (s : Json D) (t : String) : Prop where
  type_eq : s.member "type" = some (.string t)
  disallow_eq : s.member "disallow" = none
  ne_number : t ≠ "number"

/-- A string, an integer or a boolean. -/
def IsPlainScalar (j : Json D) : Prop :=
  j.type ∈ [Kind.string, .int, .bool]

/-- An order that checks the type and the value of a scalar, the type of a container, and
every element of an array that is not too long. -/
structure Order.Regular (env : Env D) (order : Order D) : Prop where
  scalar : ∀ {s j : Json D} {t : String}, OneType s t → IsPlainScalar j →
    order.scalar s j = (accepts (both (validType onErrorThrow s j.type)
      (validValue env onErrorThrow s j))).map fun _ => j
  container : ∀ {s : Json D} {t : String} (kind : Kind), OneType s t →
    order.container s kind = accepts (validType onErrorThrow s kind)
  maxSize : ∀ {s : Json D} (size : ℕ), s.member "maxItems" = none →
    order.maxSize s size = some ()
  count : ∀ {size : ℕ}, size < 2 ^ 32 → order.count size = size

section Orders

variable {env : Env D} {s : Json D} {t : String}

theorem OneType.typeFixup_eq (h : OneType s t) (j : Json D) : typeFixup env s j = .ok j := by
  rw [typeFixup, h.type_eq]
  dsimp only [asString]
  rw [ok_bind, fixNumber_eq env h.ne_number]
  rfl

theorem maxSize_of_none {size : ℕ} (h : s.member "maxItems" = none) :
    maxSize s size = some () := by
  rw [Json.maxSize, validMaxSize, h]
  rfl

theorem regular_streaming : (streaming env).Regular env where
  scalar := by
    intro s j t hs hj
    cases j with
    | undef => simp [IsPlainScalar, type] at hj
    | double x => simp [IsPlainScalar, type] at hj
    | object o => simp [IsPlainScalar, type] at hj
    | array a => simp [IsPlainScalar, type] at hj
    | int n =>
        simp only [streaming, streamScalar, hs.typeFixup_eq, value?, type]
        cases accepts (both (validType onErrorThrow s .int)
          (validValue env onErrorThrow s (.int n))) with
        | none => rfl
        | some u => rfl
    | _ =>
        simp only [streaming, streamScalar]
        exact Option.map_eq_bind.symm
  container := fun kind _ => rfl
  maxSize := by
    intro s size hnone
    simp only [streaming]
    split
    · rfl
    · exact maxSize_of_none hnone
  count := fun _ => rfl

theorem regular_whole : (whole env).Regular env where
  scalar := by
    intro s j t hs hj
    rw [accepts_both]
    cases j with
    | undef => simp [IsPlainScalar, type] at hj
    | double x => simp [IsPlainScalar, type] at hj
    | object o => simp [IsPlainScalar, type] at hj
    | array a => simp [IsPlainScalar, type] at hj
    | _ =>
        simp only [whole, wholeScalar, hs.typeFixup_eq, value?]
        simp [Option.map_eq_bind, Option.bind_assoc]
  container := by
    intro s t kind hs
    simp only [whole, hs.typeFixup_eq, value?]
    cases accepts (validType onErrorThrow s kind) with
    | none => rfl
    | some u => rfl
  maxSize := fun _ hnone => maxSize_of_none hnone
  count := by
    intro size hsize
    exact Nat.mod_eq_of_lt hsize

end Orders

section Checks

variable {env : Env D} {s : Json D}

/-- A check that fails with the error handler of a new node. -/
theorem ite_onErrorThrow {p : Prop} [Decidable p] {message : String} :
    (if p then Except.ok true else onErrorThrow message) = .ok true ↔ p := by
  split
  · rename_i hp
    simp [hp]
  · rename_i hp
    simp [hp, onErrorThrow]

theorem validMinimum_eq_ok {m n : ℤ} (h : s.member "minimum" = some (.int m)) :
    validMinimum env onErrorThrow s (.int n) = .ok true ↔ m ≤ n := by
  rw [validMinimum, h]
  dsimp only [validMinimum.check]
  rw [ite_onErrorThrow, numberLe, decide_eq_true_iff]

theorem validMinimum_of_none {j : Json D} (h : s.member "minimum" = none) :
    validMinimum env onErrorThrow s j = .ok true := by
  rw [validMinimum, h]

theorem validMaximum_eq_ok {m n : ℤ} (h : s.member "maximum" = some (.int m)) :
    validMaximum env onErrorThrow s (.int n) = .ok true ↔ n ≤ m := by
  rw [validMaximum, h]
  dsimp only [validMaximum.check]
  rw [ite_onErrorThrow, numberLe, decide_eq_true_iff]

theorem validMaximum_of_none {j : Json D} (h : s.member "maximum" = none) :
    validMaximum env onErrorThrow s j = .ok true := by
  rw [validMaximum, h]

theorem validEnum_of_none {j : Json D} (h : s.member "enum" = none) :
    validEnum env onErrorThrow s j = .ok true := by
  rw [validEnum, h]

/-- An integer is checked against the bounds. -/
theorem validValue_int {n : ℤ} (henum : s.member "enum" = none) :
    validValue env onErrorThrow s (.int n) = .ok true ↔
      validMinimum env onErrorThrow s (.int n) = .ok true ∧
        validMaximum env onErrorThrow s (.int n) = .ok true := by
  simp only [validValue, both_eq_true, validMaxDecimal, validMinLength, validMaxLength,
    validFormat, validPattern, validEnum_of_none henum, and_true]

/-- A string without a bound of its length is checked against the format, the pattern and the
enumeration. -/
theorem validValue_string {v : String}
    (hnone : ∀ k ∈ ["minimum", "maximum", "minLength", "maxLength"], s.member k = none) :
    validValue env onErrorThrow s (.string v) = .ok true ↔
      validFormat env onErrorThrow s (.string v) = .ok true ∧
        validPattern env onErrorThrow s (.string v) = .ok true ∧
          validEnum env onErrorThrow s (.string v) = .ok true := by
  simp only [List.forall_mem_cons] at hnone
  obtain ⟨hminimum, hmaximum, hminLength, hmaxLength, -⟩ := hnone
  simp only [validValue, both_eq_true, validMinimum_of_none hminimum,
    validMaximum_of_none hmaximum, validMaxDecimal, validMinLength, hminLength,
    validMaxLength, hmaxLength, true_and]

theorem validFormat_of_none {v : String} (hdefault : env.defaultFormat = "")
    (h : s.member "format" = none) : validFormat env onErrorThrow s (.string v) = .ok true := by
  simp only [validFormat, formatOf, h, hdefault, ok_bind, if_true]
  rfl

theorem validFormat_eq_ok {v format : String} {checker : String → Bool} (hformat : format ≠ "")
    (hchecker : env.formats format = some checker)
    (h : s.member "format" = some (.string format)) :
    validFormat env onErrorThrow s (.string v) = .ok true ↔ checker v := by
  simp only [validFormat, formatOf, h, asString, ok_bind, if_neg hformat, hchecker]
  exact ite_onErrorThrow

theorem validPattern_of_none {v : String} (h : s.member "pattern" = none) :
    validPattern env onErrorThrow s (.string v) = .ok true := by
  simp only [validPattern, h]

theorem validEnum_eq_ok {v : String} {texts : List String} (hlength : texts.length < 2 ^ 31)
    (h : s.member "enum" = some (.array (texts.map .string))) :
    validEnum env onErrorThrow s (.string v) = .ok true ↔ v ∈ texts := by
  have htake : (Json.array (texts.map (string : String → Json D))).length.toNat =
      (texts.map (string : String → Json D)).length := by
    rw [Json.length, toInt32, List.length_map, Int.bmod_eq_of_le (by omega) (by omega)]
    exact Int.toNat_natCast _
  rw [validEnum, h]
  simp only [htake, List.take_length]
  rw [ite_onErrorThrow, List.any_map, List.any_eq_true]
  simp [enumMatches]

end Checks

section Allows

variable {env : Env D} {order : Order D} {s : Json D} {t : String}

theorem validType_eq_ok (h : OneType s t) {kind : Kind} :
    validType onErrorThrow s kind = .ok true ↔ matchesType kind.typeToSchemaType t := by
  rw [validType, h.type_eq, h.disallow_eq]
  simp only [typeListContains, asString, ok_bind, pure, Except.pure]
  by_cases hmatch : matchesType kind.typeToSchemaType t = true
  · simp [hmatch]
  · simp [hmatch, onErrorThrow]

/-- A scalar is accepted if its type and its value are. -/
theorem allows_scalar (horder : order.Regular env) (h : OneType s t) {j : Json D}
    (hj : IsPlainScalar j) : Allows env order s j ↔
      matchesType j.type.typeToSchemaType t ∧ validValue env onErrorThrow s j = .ok true := by
  have hconform : conform env order s j = order.scalar s j := by
    cases j with
    | object o => simp [IsPlainScalar, type] at hj
    | array a => simp [IsPlainScalar, type] at hj
    | _ => rfl
  rw [Allows, hconform, horder.scalar h hj, Option.isSome_map, accepts_both, ← validType_eq_ok h]
  cases htype : accepts (validType onErrorThrow s j.type) with
  | none =>
      simp only [Option.bind_none, Option.isSome_none, Bool.false_eq_true, false_iff, not_and]
      intro hok
      rw [hok] at htype
      cases htype
  | some u =>
      rw [accepts_eq_some.mp htype, Option.bind_some, Option.isSome_iff_exists]
      simp only [accepts_eq_some, true_and, exists_const]

/-- A string is accepted if it has the format, the pattern and a value of the enumeration. -/
theorem allows_string (horder : order.Regular env) (h : OneType s "string")
    (hnone : ∀ k ∈ ["minimum", "maximum", "minLength", "maxLength"], s.member k = none)
    (v : String) : Allows env order s (.string v) ↔
      validFormat env onErrorThrow s (.string v) = .ok true ∧
        validPattern env onErrorThrow s (.string v) = .ok true ∧
          validEnum env onErrorThrow s (.string v) = .ok true := by
  rw [allows_scalar horder h (by simp [IsPlainScalar, type]), validValue_string hnone]
  simp [matchesType, Kind.typeToSchemaType, type]

/-- A schema that only says that a value is a string, apart from keywords that nothing
checks. -/
theorem allows_text (horder : order.Regular env) (hdefault : env.defaultFormat = "")
    (h : OneType s "string")
    (hnone : ∀ k ∈ ["minimum", "maximum", "minLength", "maxLength", "format", "pattern", "enum"],
      s.member k = none) (v : String) : Allows env order s (.string v) := by
  simp only [List.forall_mem_cons] at hnone
  obtain ⟨hminimum, hmaximum, hminLength, hmaxLength, hformat, hpattern, henum, -⟩ := hnone
  rw [allows_string horder h (by simp [hminimum, hmaximum, hminLength, hmaxLength])]
  exact ⟨validFormat_of_none hdefault hformat, validPattern_of_none hpattern,
    validEnum_of_none henum⟩

/-- A schema that only says that a value is a string of a format. -/
theorem allows_format {format : String} (hne : format ≠ "") (horder : order.Regular env)
    (h : OneType s "string") (hformat : s.member "format" = some (.string format))
    (hnone : ∀ k ∈ ["minimum", "maximum", "minLength", "maxLength", "pattern", "enum"],
      s.member k = none) (v : String) : Allows env order s (.string v) ↔
        ∀ checker, env.formats format = some checker → checker v := by
  simp only [List.forall_mem_cons] at hnone
  obtain ⟨hminimum, hmaximum, hminLength, hmaxLength, hpattern, henum, -⟩ := hnone
  rw [allows_string horder h (by simp [hminimum, hmaximum, hminLength, hmaxLength]),
    validPattern_of_none hpattern, validEnum_of_none henum]
  cases hchecker : env.formats format with
  | none =>
      simp [validFormat, formatOf, hformat, asString, hne, hchecker, pure, Except.pure]
  | some checker =>
      rw [validFormat_eq_ok hne hchecker hformat]
      simp

theorem conformMembers_isSome (o : List (String × Json D)) :
    (conformMembers env order s o).isSome ↔
      ∀ e ∈ o, ∃ c, s.childKey e.1 = some c ∧ Allows env order c e.2 := by
  induction o with
  | nil =>
      simp [conformMembers]
  | cons e rest ih =>
      obtain ⟨k, j⟩ := e
      rw [List.forall_mem_cons, ← ih, conformMembers]
      cases hchild : s.childKey k with
      | none => simp
      | some c =>
          cases hconform : conform env order c j with
          | none => simp [Allows, hconform]
          | some j' =>
              cases hrest : conformMembers env order s rest with
              | none => simp
              | some rest' => simp [Allows, hconform]

variable (env order) in
theorem conformElements_isSome {items : Json D}
    (hitems : ∀ i, s.childIndex i = some items) {size : ℕ} (i : ℕ) (a : List (Json D))
    (hsize : i + a.length ≤ size) : (conformElements env order s size i a).isSome ↔
      ∀ j ∈ a, Allows env order items j := by
  induction a generalizing i with
  | nil =>
      simp [conformElements]
  | cons j rest ih =>
      rw [List.length_cons] at hsize
      rw [List.forall_mem_cons, ← ih (i + 1) (by omega), conformElements, if_pos (by omega),
        hitems i]
      cases hconform : conform env order items j with
      | none => simp [Allows, hconform]
      | some j' =>
          cases hrest : conformElements env order s size (i + 1) rest with
          | none => simp
          | some rest' => simp [Allows, hconform]

/-- An array is accepted if its elements are. -/
theorem allows_array (horder : order.Regular env) (h : OneType s t) {items : Json D}
    (hmin : minSize s = fun _ => some ()) (hmax : s.member "maxItems" = none)
    (hitems : ∀ i, s.childIndex i = some items) {a : List (Json D)} (ha : a.length < 2 ^ 32) :
    Allows env order s (.array a) ↔
      matchesType "array" t ∧ ∀ j ∈ a, Allows env order items j := by
  have helements := conformElements_isSome env order hitems 0 a (Nat.le_of_eq (Nat.zero_add _))
  rw [← helements, Allows, conform, horder.container .array h, hmin, horder.maxSize _ hmax,
    horder.count ha]
  rw [← Kind.typeToSchemaType, ← validType_eq_ok h]
  cases haccepts : accepts (validType onErrorThrow s .array) with
  | none =>
      simp only [Option.bind_eq_bind, Option.bind_none, Option.isSome_none, Bool.false_eq_true,
        false_iff, not_and]
      intro hok
      rw [hok] at haccepts
      cases haccepts
  | some u =>
      rw [accepts_eq_some.mp haccepts]
      cases conformElements env order s a.length 0 a with
      | none => simp
      | some a' => simp

/-- One schema for all items. -/
theorem childIndex_items {items : List (String × Json D)}
    (h : s.member "items" = some (.object items)) (i : ℕ) :
    s.childIndex i = some (.object items) := by
  simp [childIndex, selectIndex, h, child, length, Option.filter]

theorem minSize_items {items : List (String × Json D)}
    (h : s.member "items" = some (.object items)) (hmin : s.member "minItems" = none) :
    minSize s = fun _ => some () := by
  funext size
  simp [minSize, h, validMinItems, hmin, accepts]

/-- No property has a default that is missing, or requires another one. -/
structure Undemanding (props : List (String × Json D)) (keys : List String) : Prop where
  sorted : Assoc.Sorted props
  default : ∀ e ∈ props, e.2.member "default" = none ∨ e.1 ∈ keys
  requires : ∀ e ∈ props, e.2.member "requires" = none
  optional : ∀ e ∈ props,
    e.2.member "optional" = none ∨ e.2.member "optional" = some (.bool true)

variable {props o : List (String × Json D)}

/-- Properties without a default and without requirements. -/
theorem undemanding_of_forall {keys : List String} (hsorted : Assoc.Sorted props)
    (h : ∀ e ∈ props, e.2.member "default" = none ∧ e.2.member "requires" = none ∧
      (e.2.member "optional" = none ∨ e.2.member "optional" = some (.bool true))) :
    Undemanding props keys where
  sorted := hsorted
  default := fun e he => .inl (h e he).1
  requires := fun e he => (h e he).2.1
  optional := fun e he => (h e he).2.2

theorem hasKey_object (k : String) : (object o).hasKey k = decide (k ∈ o.map Prod.fst) := by
  exact Assoc.isSome_lookup k o

theorem defaultOf_eq_nil {p : Json D} {k : String} (hproperty : s.property k = some p)
    (h : p.member "default" = none ∨ k ∈ o.map Prod.fst) :
    defaultOf env s (.object o) k = some [] := by
  simp only [defaultOf, hproperty, Option.bind_eq_bind, Option.bind_some]
  cases hvalue : p.member "default" with
  | none => rfl
  | some d =>
      rcases h with hnone | hkey
      · rw [hvalue] at hnone
        cases hnone
      · dsimp only
        rw [hasKey_object, decide_eq_true hkey]
        rfl

theorem validRequired_eq_ok {p : Json D} {k : String} (hrequires : p.member "requires" = none)
    (hoptional : p.member "optional" = none ∨ p.member "optional" = some (.bool true)) :
    validRequired onErrorThrow (.object o) p k = .ok true ↔
      (p.member "optional" = none → k ∈ o.map Prod.fst) := by
  rcases hoptional with hnone | hsome
  · simp only [validRequired, isOptional, hnone, ok_bind, hasKey_object, forall_const]
    by_cases hkey : k ∈ o.map Prod.fst
    · simp [hkey, pure, Except.pure]
    · simp [hkey, onErrorThrow]
  · simp [validRequired, isOptional, hsome, hrequires, asBool, pure, Except.pure]

theorem Undemanding.property_eq (h : Undemanding props (o.map Prod.fst))
    (hprops : s.member "properties" = some (.object props)) {e : String × Json D}
    (he : e ∈ props) : s.property e.1 = some e.2 := by
  rw [property, hprops]
  exact (Assoc.mem_iff_lookup h.sorted).mp he

theorem Undemanding.defaultsLoop_eq (h : Undemanding props (o.map Prod.fst))
    (hprops : s.member "properties" = some (.object props)) {names : List String}
    (hnames : ∀ k ∈ names, k ∈ props.map Prod.fst) :
    defaultsLoop env s (.object o) names = some [] := by
  induction names with
  | nil => rfl
  | cons k rest ih =>
      obtain ⟨e, he, rfl⟩ := List.mem_map.mp (hnames k List.mem_cons_self)
      rw [defaultsLoop, defaultOf_eq_nil (h.property_eq hprops he) (h.default e he),
        ih fun k hk => hnames k (List.mem_cons_of_mem _ hk)]
      rfl

theorem Undemanding.validRequires_eq_ok (h : Undemanding props (o.map Prod.fst))
    (hprops : s.member "properties" = some (.object props)) :
    validRequires onErrorThrow s (.object o) = .ok true ↔
      ∀ e ∈ props, e.2.member "optional" = none → e.1 ∈ o.map Prod.fst := by
  have hvalid : ∀ e ∈ props, validProperty onErrorThrow s (.object o) e.1 = .ok true ↔
      (e.2.member "optional" = none → e.1 ∈ o.map Prod.fst) := by
    intro e he
    rw [validProperty, h.property_eq hprops he]
    exact validRequired_eq_ok (h.requires e he) (h.optional e he)
  have hnames : s.properties = .ok (props.map Prod.fst) := by
    rw [properties, hprops]
    rfl
  rw [validRequires, hnames, ok_bind]
  constructor
  · intro hall e he
    exact (hvalid e he).mp (forall_of_allM hall e.1 (List.mem_map_of_mem he))
  · intro hall
    apply allM_of_forall
    intro k hk
    obtain ⟨e, he, rfl⟩ := List.mem_map.mp hk
    exact (hvalid e he).mpr (hall e he)

variable (env) in
/-- An object is complete if it has all that is required. -/
theorem Undemanding.complete_isSome (h : Undemanding props (o.map Prod.fst))
    (hprops : s.member "properties" = some (.object props)) : (complete env s o).isSome ↔
      ∀ e ∈ props, e.2.member "optional" = none → e.1 ∈ o.map Prod.fst := by
  have hnames : value? s.properties = some (props.map Prod.fst) := by
    rw [properties, hprops]
    rfl
  rw [← h.validRequires_eq_ok hprops, complete, hnames]
  simp only [Option.bind_eq_bind, Option.bind_some, h.defaultsLoop_eq hprops fun _ hk => hk,
    addMembers, List.foldl_nil]
  cases hvalid : accepts (validRequires onErrorThrow s (.object o)) with
  | none =>
      simp only [Option.bind_none, Option.isSome_none, Bool.false_eq_true, false_iff]
      intro hok
      rw [hok] at hvalid
      cases hvalid
  | some u => simp [accepts_eq_some.mp hvalid]

/-- An object is accepted if its members are, and the object of what they become is
complete. -/
theorem allows_members (horder : order.Regular env) (h : OneType s t) :
    Allows env order s (.object o) ↔ matchesType "object" t ∧
      ∃ o', conformMembers env order s o = some o' ∧ (complete env s o').isSome := by
  rw [Allows, conform, horder.container .object h, ← Kind.typeToSchemaType,
    ← validType_eq_ok h]
  cases htype : accepts (validType onErrorThrow s .object) with
  | none =>
      simp only [Option.bind_eq_bind, Option.bind_none, Option.isSome_none, Bool.false_eq_true,
        false_iff, not_and]
      intro hok
      rw [hok] at htype
      cases htype
  | some u =>
      rw [accepts_eq_some.mp htype]
      cases conformMembers env order s o with
      | none => simp
      | some o' => simp

/-- An object is accepted if its members are, and it has all that is required. -/
theorem allows_object (horder : order.Regular env) (h : OneType s t)
    (hprops : s.member "properties" = some (.object props))
    (hundemanding : Undemanding props (o.map Prod.fst)) :
    Allows env order s (.object o) ↔ matchesType "object" t ∧
      (∀ e ∈ o, ∃ c, s.childKey e.1 = some c ∧ Allows env order c e.2) ∧
        ∀ e ∈ props, e.2.member "optional" = none → e.1 ∈ o.map Prod.fst := by
  rw [← conformMembers_isSome, allows_members horder h]
  refine and_congr_right fun _ => ?_
  cases hmembers : conformMembers env order s o with
  | none => simp
  | some o' =>
      have hkeys : o'.map Prod.fst = o.map Prod.fst := by
        rw [conformMembers_eq] at hmembers
        exact Assoc.map_fst_of_mapValues? hmembers
      have hcomplete := (hkeys ▸ hundemanding).complete_isSome env hprops
      simpa [hkeys] using hcomplete

/-- An object whose schema has no properties is accepted if its members are. -/
theorem allows_open (horder : order.Regular env) (h : OneType s t)
    (hprops : s.member "properties" = none) :
    Allows env order s (.object o) ↔ matchesType "object" t ∧
      ∀ e ∈ o, ∃ c, s.childKey e.1 = some c ∧ Allows env order c e.2 := by
  have hcomplete : ∀ o' : List (String × Json D), (complete env s o').isSome := by
    intro o'
    have hnames : s.properties = .ok [] := by
      rw [properties, hprops]
    simp [complete, validRequires, hnames, value?, defaultsLoop, addMembers, accepts, pure,
      Except.pure]
  rw [← conformMembers_isSome, allows_members horder h]
  simp [hcomplete, Option.isSome_iff_exists]

/-- The object that is made by assignments is accepted if the values are. -/
theorem allows_assignAll (horder : order.Regular env) (h : OneType s t)
    (hprops : s.member "properties" = some (.object props))
    {fields : List (String × Option (Json D))} (hnodup : (fields.map Prod.fst).Nodup)
    (hundemanding : Undemanding props ((Assoc.assignAll fields []).map Prod.fst)) :
    Allows env order s (.object (Assoc.assignAll fields [])) ↔ matchesType "object" t ∧
      (∀ k v, (k, some v) ∈ fields → ∃ c, s.childKey k = some c ∧ Allows env order c v) ∧
        ∀ e ∈ props, e.2.member "optional" = none → ∃ v, (e.1, some v) ∈ fields := by
  rw [allows_object horder h hprops hundemanding]
  simp only [Prod.forall, Assoc.mem_assignAll hnodup, Assoc.mem_keys_assignAll hnodup]

section Any

variable (env)

theorem childKey_any (k : String) : (anySchema : Json D).childKey k = some anySchema :=
  rfl

theorem childIndex_any (i : ℕ) : (anySchema : Json D).childIndex i = some anySchema :=
  rfl

theorem validType_any (kind : Kind) :
    validType onErrorThrow (anySchema : Json D) kind = .ok true :=
  rfl

theorem validValue_any (hdefault : env.defaultFormat = "") (j : Json D) :
    validValue env onErrorThrow anySchema j = .ok true := by
  cases j with
  | string v =>
      have hnone : ∀ k ∈ ["minimum", "maximum", "minLength", "maxLength"],
          (anySchema : Json D).member k = none := by
        simp [anySchema, member, Assoc.lookup_cons_eq]
      rw [validValue_string hnone, validFormat_of_none hdefault rfl, validPattern_of_none rfl,
        validEnum_of_none rfl]
      exact ⟨rfl, rfl, rfl⟩
  | _ => rfl

mutual

/-- The parser accepts every value for the schema `{"type":"any"}` and leaves it as it is. -/
theorem conform_any (hdefault : env.defaultFormat = "") : ∀ j : Json D,
    conform env (streaming env) anySchema j = some j
  | .undef => rfl
  | .bool b => by
      simp only [conform, streaming, streamScalar, validType_any, validValue_any env hdefault]
      rfl
  | .int n => by
      simp only [conform, streaming, streamScalar, validType_any, validValue_any env hdefault]
      rfl
  | .double x => by
      simp only [conform, streaming, streamScalar, validType_any, validValue_any env hdefault]
      rfl
  | .string v => by
      simp only [conform, streaming, streamScalar, validType_any, validValue_any env hdefault]
      rfl
  | .object o => by
      rw [conform, conformMembers_any hdefault o]
      rfl
  | .array a => by
      have helements := conformElements_any hdefault a.length 0 a (by omega)
      have hmin : minSize (anySchema : Json D) a.length = some () := rfl
      have hmax : (streaming env).maxSize anySchema a.length = some () :=
        regular_streaming.maxSize _ rfl
      have htype : (streaming env).container anySchema .array = some () := rfl
      rw [conform, htype, hmin, hmax, Option.bind_eq_bind, Option.bind_some, Option.bind_some,
        Option.bind_some]
      exact congrArg (Option.bind · _) helements

theorem conformMembers_any (hdefault : env.defaultFormat = "") :
    ∀ o : List (String × Json D),
      conformMembers env (streaming env) anySchema o = some o
  | [] => rfl
  | (k, j) :: rest => by
      rw [conformMembers, childKey_any, Option.bind_eq_bind, Option.bind_some,
        conform_any hdefault j, conformMembers_any hdefault rest]
      rfl

theorem conformElements_any (hdefault : env.defaultFormat = "") (size i : ℕ) :
    ∀ a : List (Json D), i + a.length ≤ size →
      conformElements env (streaming env) anySchema size i a = some a
  | [], _ => rfl
  | j :: rest, h => by
      rw [List.length_cons] at h
      rw [conformElements, if_pos (by omega), childIndex_any, Option.bind_eq_bind,
        Option.bind_some, conform_any hdefault j,
        conformElements_any hdefault size (i + 1) rest (by omega)]
      rfl

end

theorem allows_any (hdefault : env.defaultFormat = "") (j : Json D) :
    Allows env (streaming env) anySchema j := by
  rw [Allows, conform_any env hdefault]
  rfl

end Any

end Allows

/-- The text of the value is read, and the schema accepts what is read. -/
def AllowsText (env : Env D) (order : Order D) (s j : Json D) : Prop :=
  ∃ j', reread env j = some j' ∧ Allows env.throwing order s j'

section Text

variable {env : Env D} {order : Order D} {s : Json D} {t : String}
  {props : List (String × Json D)} {fields : List (String × Option (Json D))}

theorem allowsText_string (v : String) :
    AllowsText env order s (.string v) ↔ Allows env.throwing order s (.string v) := by
  constructor
  · rintro ⟨j', hread, h⟩
    cases hread
    exact h
  · exact fun h => ⟨_, rfl, h⟩

variable (env) in
/-- The members of an object that is read from a text are read one by one. -/
theorem exists_related (P : String → Json D → Prop) (o : List (String × Json D)) :
    (∃ o', Assoc.Related (fun j j' => reread env j = some j') o o' ∧ ∀ e ∈ o', P e.1 e.2) ↔
      ∀ e ∈ o, ∃ j', reread env e.2 = some j' ∧ P e.1 j' := by
  induction o with
  | nil =>
      constructor
      · intro _ e he
        cases he
      · intro _
        refine ⟨[], .nil, ?_⟩
        intro e he
        cases he
  | cons e rest ih =>
      rw [List.forall_mem_cons, ← ih]
      constructor
      · rintro ⟨o', hrelated, hall⟩
        obtain ⟨e', rest', ⟨hkey, hread⟩, hrest, rfl⟩ := List.forall₂_cons_left_iff.mp hrelated
        rw [List.forall_mem_cons] at hall
        exact ⟨⟨e'.2, hread, hkey ▸ hall.1⟩, rest', hrest, hall.2⟩
      · rintro ⟨⟨j', hread, hP⟩, rest', hrest, hall⟩
        refine ⟨(e.1, j') :: rest', .cons ⟨rfl, hread⟩ hrest, ?_⟩
        rw [List.forall_mem_cons]
        exact ⟨hP, hall⟩

/-- An array of strings, with one schema for all items. -/
theorem allowsText_strings (horder : order.Regular env.throwing) (h : OneType s "array")
    {items : List (String × Json D)} (hitems : s.member "items" = some (.object items))
    (hmin : s.member "minItems" = none) (hmax : s.member "maxItems" = none)
    {texts : List String} (hlength : texts.length < 2 ^ 32) :
    AllowsText env order s (.array (texts.map .string)) ↔
      ∀ v ∈ texts, Allows env.throwing order (.object items) (.string v) := by
  have hallows := allows_array horder h (minSize_items hitems hmin) hmax
    (childIndex_items hitems) (a := texts.map .string) (by rw [List.length_map]; exact hlength)
  rw [List.forall_mem_map] at hallows
  have hread : reread env (.array (texts.map .string)) = some (.array (texts.map .string)) :=
    reread_strings hlength
  constructor
  · rintro ⟨j', hj', hallowed⟩
    rw [hread] at hj'
    cases hj'
    exact (hallows.mp hallowed).2
  · exact fun hall => ⟨_, hread, hallows.mpr ⟨by decide, hall⟩⟩

theorem allowsText_object (horder : order.Regular env.throwing) (h : OneType s t)
    (hprops : s.member "properties" = some (.object props)) {o : List (String × Json D)}
    (hundemanding : Undemanding props (o.map Prod.fst)) :
    AllowsText env order s (.object o) ↔ matchesType "object" t ∧
      (∀ e ∈ o, ∃ j', reread env e.2 = some j' ∧
        ∃ c, s.childKey e.1 = some c ∧ Allows env.throwing order c j') ∧
        ∀ e ∈ props, e.2.member "optional" = none → e.1 ∈ o.map Prod.fst := by
  rw [← exists_related env
    (fun k j' => ∃ c, s.childKey k = some c ∧ Allows env.throwing order c j') o]
  constructor
  · rintro ⟨j', hread, hallows⟩
    rw [reread, Option.map_eq_some_iff] at hread
    obtain ⟨o', ho', rfl⟩ := hread
    have hrelated := rereadMembers_eq_some.mp ho'
    have hkeys := hrelated.map_fst
    obtain ⟨htype, hmembers, hrequired⟩ :=
      (allows_object horder h hprops (hkeys ▸ hundemanding)).mp hallows
    exact ⟨htype, ⟨o', hrelated, hmembers⟩, hkeys ▸ hrequired⟩
  · rintro ⟨htype, ⟨o', hrelated, hmembers⟩, hrequired⟩
    have hkeys := hrelated.map_fst
    refine ⟨.object o', ?_, ?_⟩
    · rw [reread, rereadMembers_eq_some.mpr hrelated]
      rfl
    · exact (allows_object horder h hprops (hkeys ▸ hundemanding)).mpr
        ⟨htype, hmembers, hkeys ▸ hrequired⟩

/-- The text of an object that is made by assignments is accepted if the texts of the values
are. -/
theorem allowsText_assignAll (horder : order.Regular env.throwing) (h : OneType s t)
    (hprops : s.member "properties" = some (.object props))
    (hnodup : (fields.map Prod.fst).Nodup)
    (hundemanding : Undemanding props ((Assoc.assignAll fields []).map Prod.fst)) :
    AllowsText env order s (.object (Assoc.assignAll fields [])) ↔ matchesType "object" t ∧
      (∀ k v, (k, some v) ∈ fields → ∃ c, s.childKey k = some c ∧ AllowsText env order c v) ∧
        ∀ e ∈ props, e.2.member "optional" = none → ∃ v, (e.1, some v) ∈ fields := by
  rw [allowsText_object horder h hprops hundemanding]
  simp only [Prod.forall, Assoc.mem_assignAll hnodup, Assoc.mem_keys_assignAll hnodup,
    AllowsText]
  refine and_congr_right fun _ => and_congr_left fun _ => forall_congr' fun k =>
    forall_congr' fun v => imp_congr_right fun _ => ?_
  constructor
  · rintro ⟨j', hread, c, hchild, hallows⟩
    exact ⟨c, hchild, j', hread, hallows⟩
  · rintro ⟨c, hchild, j', hread, hallows⟩
    exact ⟨j', hread, c, hchild, hallows⟩

/-- What holds of the values that are there, field by field. -/
theorem forall_some {fields : List (String × Option (Json D))} {P : String → Json D → Prop} :
    (∀ k v, (k, some v) ∈ fields → P k v) ↔ ∀ e ∈ fields, ∀ v ∈ e.2, P e.1 v := by
  constructor
  · rintro h ⟨k, o⟩ he v hv
    cases hv
    exact h k v he
  · intro h k v hmem
    exact h (k, some v) hmem v rfl

theorem forall_mem_ite {c : Prop} [Decidable c] {v : Json D} {P : Json D → Prop} :
    (∀ w ∈ (if c then some v else none), P w) ↔ (c → P v) := by
  by_cases hc : c
  · simp [hc]
  · simp [hc]

end Text

end Json

end Gearbox
