import Gearbox.Json.Uses

/-!
# The two ways to validate a document

A document can be parsed with a schema, or it can be parsed without one and the tree be
validated. Where the types of the schema have no numbers the two make the same of every
document in which `Json::validate` gets to no array with `2 ^ 32` or more elements, and to
no list of as many types (`WalksShort`). In a longer array it looks only at the elements
before the size of the array modulo `2 ^ 32`, while the parser looks at all of them.
-/

namespace Gearbox

namespace Json

open Refinement

variable {D : Type}

/-- The output tree of a parse with a schema, if the document is accepted. -/
def streamed (env : Env D) (T : Json D) (d : Doc) : Option (Json D) :=
  ((Use.parse (.document d)).run env.throwing (Tree.fresh T)).1

/-- The output tree of a parse without a schema and a validation with a fresh copy of the
schema, if the document is accepted. -/
def validated (env : Env D) (T : Json D) (d : Doc) : Option (Json D) :=
  let r := parse env.throwing (.document d) none
  (value? r.1).bind fun _ =>
    ((Use.validate r.2.json.root).run env.throwing (Tree.fresh T)).1

section Meaning

variable (env : Env D) (T : Json D) (d : Doc)

theorem streamed_eq_read : streamed env T d = read env.throwing (some T) d :=
  run_eq_meaning env.throwing_errHandler (Extends.refl env.throwing (Tree.fresh T))
    (.parse (.document d))

theorem streamed_eq_conform : streamed env T d =
    (read env.throwing none d).bind (conform env.throwing (streaming env.throwing) T) := by
  rw [streamed_eq_read, read_some]

theorem validated_eq_conform : validated env T d =
    (read env.throwing none d).bind (conform env.throwing (whole env.throwing) T) := by
  have hvalidate := fun j => run_eq_meaning env.throwing_errHandler
    (Extends.refl env.throwing (Tree.fresh T)) (.validate j)
  rw [validated]
  rcases (meets_parse_none env.throwing_errHandler d).cases with
    ⟨e, c, hparse, hread, -⟩ | ⟨u, j, c, hparse, hread, -, hroot⟩
  · simp only [hparse, hread, value?, Option.bind_none]
  · simp only [hparse, hread, value?, Option.bind_some, hroot]
    exact hvalidate j

/-- In the tree of the document `Json::validate` gets to nothing that is too long for its
counters. -/
def ShortOn : Prop :=
  ∀ j, read env.throwing none d = some j → WalksShort env.throwing T j

variable {env T d}

/-- The two ways agree on a document in which everything can be counted. -/
theorem streamed_eq_validated (hT : WellTyped T) (hnumber : NumberFree T)
    (hshort : ShortOn env T d) : streamed env T d = validated env T d := by
  rw [streamed_eq_conform, validated_eq_conform]
  cases hread : read env.throwing none d with
  | none => rfl
  | some j => exact (conform_whole j ⟨hT, hnumber⟩ (hshort j hread)).symm

/-- A value whose type is refused is not looked into. -/
theorem walksShort_of_refused {s j : Json D}
    (h : accepts (validType onErrorThrow s j.type) = none) : WalksShort env s j := by
  have hcontainer : (whole env).container s j.type = none := by
    simp [whole, h]
  intro c v hwalks
  cases hwalks with
  | here =>
      refine ⟨fun _ _ haccepts => ?_, fun a ha hc _ _ => ?_⟩
      · rw [h] at haccepts
        cases haccepts
      · subst ha
        rw [type] at hcontainer
        rw [hcontainer] at hc
        cases hc
  | member hc _ _ _ =>
      rw [type] at hcontainer
      rw [hcontainer] at hc
      cases hc
  | element _ hc _ _ _ _ _ _ =>
      rw [type] at hcontainer
      rw [hcontainer] at hc
      cases hc

/-- What `Json::validate` gets to has the bounds of the schema and the value. -/
theorem Walks.bounded {n : ℕ} {s j c v : Json D} (h : Walks env s j c v)
    (hs : ShortTypes n s) (hj : j.Bounded n) : ShortTypes n c ∧ v.Bounded n := by
  have hsub : ∀ {s c : Json D} {sel : Option Sel}, ShortTypes n s →
      sel.bind s.child = some c → ShortTypes n c := by
    intro s c sel hs hc sels c' hc'
    obtain ⟨sel, -, hsel⟩ := Option.bind_eq_some_iff.mp hc
    exact hs (sel :: sels) c' (by simp [sub, hsel, hc'])
  induction h with
  | here s j => exact ⟨hs, hj⟩
  | member _ _ hc _ ih =>
      rw [Bounded, boundedMembers_iff] at hj
      exact ih (hsub hs hc) (hj _ (List.mem_append_right _ List.mem_cons_self))
  | element _ _ _ _ _ _ hc _ ih =>
      rw [Bounded, boundedElements_iff] at hj
      exact ih (hsub hs hc) (hj.2 _ (List.mem_append_right _ List.mem_cons_self))

/-- In a document with short arrays, with short lists of types, everything can be
counted. -/
theorem shortOn_of_bounded (hshort : ShortTypes (2 ^ 32 - 1) T)
    (hd : d.Bounded (2 ^ 32 - 1)) : ShortOn env T d := by
  intro j hread c v h
  obtain ⟨hc, hv⟩ := h.bounded hshort (bounded_read env.throwing d hd hread)
  refine ⟨fun _ _ _ types htypes => ?_, fun a ha _ _ _ => ?_⟩
  · have hlength := hc [] c rfl types htypes
    omega
  · subst ha
    rw [Bounded] at hv
    omega

end Meaning

section Long

variable (env : Env D)

/-- The schema `{"type":"boolean"}`. -/
def booleanSchema : Json D :=
  .object [("type", .string "boolean")]

/-- The schema `{"items":{"type":"boolean"}}`. -/
def booleanItems : Json D :=
  .object [("items", booleanSchema)]

/-- Booleans with nulls after them. -/
def boolsThenNulls (bools nulls : ℕ) : List Doc :=
  List.replicate bools (.boolean true) ++ List.replicate nulls .null

theorem childIndex_booleanItems (i : ℕ) :
    (booleanItems : Json D).childIndex i = some booleanSchema := by
  simp [booleanItems, booleanSchema, childIndex, selectIndex, child, member, length,
    Option.filter]

/-- The elements that are looked at stay as they are. -/
theorem conformElements_self {order : Order D} {s : Json D} {size i : ℕ}
    {a : List (Json D)}
    (h : ∀ k j, i + k < size → a[k]? = some j → ∀ i',
      (s.childIndex i').bind (fun c => conform env order c j) = some j) :
    conformElements env order s size i a = some a := by
  induction a generalizing i with
  | nil => rfl
  | cons j rest ih =>
      rw [conformElements]
      by_cases hi : i < size
      · have hj := h 0 j (by omega) (by simp) i
        obtain ⟨c, hc, hconform⟩ := Option.bind_eq_some_iff.mp hj
        have hrest := ih (i := i + 1) fun k j' hk hj' =>
          h (k + 1) j' (by omega) (by simpa using hj')
        simp [hi, hc, hconform, hrest]
      · simp [hi]

/-- An element that is looked at is rejected. -/
theorem conformElements_none {order : Order D} {s : Json D} {size i k : ℕ}
    {a : List (Json D)} {j : Json D} (hk : i + k < size) (hj : a[k]? = some j)
    (h : ∀ i', (s.childIndex i').bind (fun c => conform env order c j) = none) :
    conformElements env order s size i a = none := by
  induction a generalizing i k with
  | nil => simp at hj
  | cons j₀ rest ih =>
      rw [conformElements, if_pos (by omega)]
      cases k with
      | zero =>
          have hj₀ : j₀ = j := by simpa using hj
          subst hj₀
          have hnone := h i
          cases hc : s.childIndex i with
          | none => rfl
          | some c =>
              rw [hc, Option.bind_some] at hnone
              simp [hnone]
      | succ k =>
          have hrest := ih (i := i + 1) (k := k) (by omega) (by simpa using hj)
          simp [hrest]

theorem readElements_map {f : Doc → Json D} (elements : List Doc) (a : List (Json D))
    (h : ∀ d ∈ elements, read env none d = some (f d)) :
    readElements env none a elements = some (a ++ elements.map f) := by
  induction elements generalizing a with
  | nil => simp [readElements]
  | cons d rest ih =>
      have hd := h d List.mem_cons_self
      have hrest := ih (a ++ [f d]) fun d' hd' => h d' (List.mem_cons_of_mem d hd')
      simp [readElements, require, descend, hd, hrest]

theorem read_boolsThenNulls (bools nulls : ℕ) :
    read env none (.array (boolsThenNulls bools nulls)) =
      some (.array (List.replicate bools (.bool true) ++
        List.replicate nulls .undef)) := by
  have hmap := readElements_map env (boolsThenNulls bools nulls) []
    (f := fun d => if d matches .null then .undef else .bool true) (by
      intro d hd
      rcases List.mem_append.mp hd with hd | hd
      · simp [List.eq_of_mem_replicate hd, read, readScalar]
      · simp [List.eq_of_mem_replicate hd, read, readScalar])
  rw [read]
  simp only [require, hmap, Option.bind_eq_bind, Option.bind_some]
  simp [boolsThenNulls]

theorem conform_booleanItems (order : Order D) (a : List (Json D))
    (hcontainer : order.container booleanItems .array = some ())
    (hmaxSize : order.maxSize booleanItems a.length = some ()) :
    conform env order booleanItems (.array a) =
      (conformElements env order booleanItems (order.count a.length) 0 a).map .array := by
  have hminSize : minSize (booleanItems : Json D) a.length = some () := rfl
  simp [conform, hcontainer, hmaxSize, hminSize, Option.map_eq_bind]

/-- `Json::validate` does not look at the nulls. -/
theorem validated_boolsThenNulls {bools nulls : ℕ} (hbools : bools < 2 ^ 32)
    (hnulls : nulls % 2 ^ 32 = 0) :
    validated env booleanItems (.array (boolsThenNulls bools nulls)) =
      some (.array (List.replicate bools (.bool true) ++
        List.replicate nulls .undef)) := by
  rw [validated_eq_conform, read_boolsThenNulls, Option.bind_some,
    conform_booleanItems _ _ _ rfl rfl, conformElements_self]
  · rfl
  · intro k j hk hj i'
    have hk' : k < bools := by
      simp only [whole, toUInt32, List.length_append, List.length_replicate] at hk
      omega
    have hbool : j = .bool true := by
      rw [List.getElem?_append_left (by simpa using hk')] at hj
      simpa [hk', eq_comm] using hj
    rw [hbool, childIndex_booleanItems]
    rfl

/-- The parser rejects the first null. -/
theorem streamed_boolsThenNulls (bools : ℕ) {nulls : ℕ} (hnulls : 0 < nulls) :
    streamed env booleanItems (.array (boolsThenNulls bools nulls)) = none := by
  have hmaxSize : (streaming env.throwing).maxSize booleanItems
      (List.replicate bools (.bool true) ++ List.replicate nulls .undef : List (Json D)).length
        = some () := by
    simp only [streaming]
    split
    · rfl
    · rfl
  rw [streamed_eq_conform, read_boolsThenNulls, Option.bind_some,
    conform_booleanItems _ _ _ rfl hmaxSize,
    conformElements_none env.throwing (k := bools) (j := .undef)]
  · rfl
  · simp only [streaming, List.length_append, List.length_replicate, id_eq]
    omega
  · simp [hnulls]
  · intro i'
    rw [childIndex_booleanItems]
    rfl

end Long

section Types

variable (env : Env D)

/-- A schema with a list of types that are all `"boolean"`. -/
def booleanTypes (n : ℕ) : Json D :=
  .object [("type", .array (List.replicate n (.string "boolean")))]

theorem validType_booleanTypes {n : ℕ} (hn : 0 < n) :
    validType onErrorThrow (booleanTypes n : Json D) .bool = .ok true := by
  obtain ⟨n, rfl⟩ := Nat.exists_eq_succ_of_ne_zero (Nat.ne_of_gt hn)
  have hmatches : anyMatches "boolean"
      ((List.replicate (n + 1) (.string "boolean" : Json D)).take (2 ^ 32)) = .ok true := by
    rw [List.replicate_succ, List.take_cons (by decide), anyMatches]
    simp [asString, matchesType, pure, Except.pure]
  have hmember : (booleanTypes (n + 1) : Json D).member "disallow" = none := rfl
  have htype : (booleanTypes (n + 1) : Json D).member "type" =
      some (.array (List.replicate (n + 1) (.string "boolean"))) := rfl
  simp only [validType, hmember, Nat.succ_eq_add_one, htype, typeListContains,
    Kind.typeToSchemaType, hmatches, ok_bind, if_true, pure, Except.pure]

/-- The parser does not convert a boolean. -/
theorem streamed_booleanTypes {n : ℕ} (hn : 0 < n) :
    streamed env (booleanTypes n) (.boolean true) = some (.bool true) := by
  have hvalue : validValue env.throwing onErrorThrow (booleanTypes n : Json D)
      (.bool true) = .ok true := rfl
  rw [streamed_eq_read]
  simp [read, readScalar, streamScalar, type, validType_booleanTypes hn, hvalue, both,
    accepts]

/-- `Json::validate` does, and its loop over the types does not end. -/
theorem validated_booleanTypes {n : ℕ} (hn : 2 ^ 32 ≤ n) :
    validated env (booleanTypes n) (.boolean true) = none := by
  have hlong : ¬ ShortList (booleanTypes n : Json D) := by
    intro hshort
    have hlength := hshort _ rfl
    rw [List.length_replicate] at hlength
    omega
  have hfix := typeFixup_of_long env.throwing hlong (.bool true)
  rw [validated_eq_conform]
  simp [read, readScalar, conform, whole, wholeScalar, hfix]

end Types

section Schemas

theorem forall_sub {P : Json D → Prop} {T : Json D} (hT : P T)
    (hchild : ∀ s sel c, P s → s.child sel = some c → P c) (sels : List Sel) {c : Json D}
    (hc : T.sub sels = some c) : P c := by
  induction sels generalizing T with
  | nil =>
      cases hc
      exact hT
  | cons sel sels ih =>
      obtain ⟨c', hc', hsub⟩ := Option.bind_eq_some_iff.mp hc
      exact ih (hchild T sel c' hT hc') hsub

/-- One of the schemas that are used here. -/
def IsSample (n : ℕ) (s : Json D) : Prop :=
  s = booleanItems ∨ s = booleanSchema ∨ s = booleanTypes n ∨ s = anySchema

theorem IsSample.child {n : ℕ} {s c : Json D} {sel : Sel} (hs : IsSample n s)
    (hc : s.child sel = some c) : IsSample n c := by
  rcases hs with rfl | rfl | rfl | rfl <;> cases sel <;>
    simp_all [Json.child, booleanItems, booleanSchema, booleanTypes, anySchema, property,
      tuple, member, length, Option.filter, IsSample, Assoc.lookup_cons_eq]

theorem IsSample.typed {n : ℕ} {s : Json D} (hs : IsSample n s) : Typed s := by
  rcases hs with rfl | rfl | rfl | rfl
  · constructor <;>
      simp [booleanItems, booleanSchema, member, Assoc.lookup_cons_eq, type]
  · constructor <;>
      simp [booleanSchema, member, Assoc.lookup_cons_eq, type, IsTypeList]
  · constructor <;>
      simp [booleanTypes, member, Assoc.lookup_cons_eq, type, IsTypeList]
  · constructor <;>
      simp [anySchema, member, Assoc.lookup_cons_eq, type, IsTypeList]

theorem IsSample.notNumber {n : ℕ} {s : Json D} (hs : IsSample n s) : NotNumber s := by
  intro t ht
  rcases hs with rfl | rfl | rfl | rfl <;>
    simp [booleanItems, booleanSchema, booleanTypes, anySchema, member,
      Assoc.lookup_cons_eq] at ht
  · simp [← ht]
  · simp [← ht]
  · simp [← ht]

theorem IsSample.wellTyped {n : ℕ} {s : Json D} (hs : IsSample n s) : WellTyped s :=
  fun sels _ hc => (forall_sub (P := IsSample n) hs (fun _ _ _ => IsSample.child) sels hc).typed

theorem IsSample.numberFree {n : ℕ} {s : Json D} (hs : IsSample n s) : NumberFree s :=
  fun sels _ hc =>
    (forall_sub (P := IsSample n) hs (fun _ _ _ => IsSample.child) sels hc).notNumber

theorem IsSample.shortTypes {n : ℕ} {s : Json D} (hs : IsSample n s) : ShortTypes n s := by
  intro sels c hc a ha
  rcases forall_sub (P := IsSample n) hs (fun _ _ _ => IsSample.child) sels hc with
    rfl | rfl | rfl | rfl <;>
    simp [booleanItems, booleanSchema, booleanTypes, anySchema, member,
      Assoc.lookup_cons_eq] at ha
  simp [← ha]

end Schemas

section Agreement

/-- The two ways to validate agree where `Json::validate` gets to no array and no list of
types with `2 ^ 32` or more elements, and they disagree on a document with an array, and on
a schema with a list of types, of any larger size. -/
theorem validation_agrees (env : Env D) :
    (∀ T d, WellTyped T → NumberFree T → ShortOn env T d →
      streamed env T d = validated env T d) ∧
    (∀ n, 2 ^ 32 ≤ n → ∃ T elements, WellTyped T ∧ NumberFree T ∧
      ShortTypes (2 ^ 32 - 1) T ∧ elements.length = n ∧
      streamed env T (.array elements) ≠ validated env T (.array elements)) ∧
    ∀ n, 2 ^ 32 ≤ n → ∃ T types d, WellTyped T ∧ NumberFree T ∧
      T.member "type" = some (.array types) ∧ types.length = n ∧
      d.Bounded (2 ^ 32 - 1) ∧ streamed env T d ≠ validated env T d := by
  refine ⟨fun T d hT hnumber hshort => streamed_eq_validated hT hnumber hshort, ?_, ?_⟩
  · intro n hn
    have hsample : IsSample (2 ^ 32 - 1) (booleanItems : Json D) := Or.inl rfl
    refine ⟨booleanItems, boolsThenNulls (n % 2 ^ 32) (n - n % 2 ^ 32),
      hsample.wellTyped, hsample.numberFree, hsample.shortTypes, ?_, ?_⟩
    · simp only [boolsThenNulls, List.length_append, List.length_replicate]
      omega
    · rw [streamed_boolsThenNulls env _ (by omega),
        validated_boolsThenNulls env (by omega) (by omega)]
      simp
  · intro n hn
    have hsample : IsSample n (booleanTypes n : Json D) := Or.inr (Or.inr (Or.inl rfl))
    refine ⟨booleanTypes n, List.replicate n (.string "boolean"), .boolean true,
      hsample.wellTyped, hsample.numberFree, rfl, List.length_replicate, trivial, ?_⟩
    rw [streamed_booleanTypes env (by omega), validated_booleanTypes env hn]
    simp

/-- Numbers without a fraction, and no formats. -/
def wholeNumbers : Env ℤ where
  ofInt := id
  le := fun a b => a ≤ b
  eq := fun a b => a = b
  print := toString
  lexInt := String.toInt?
  lexDouble := fun _ => none
  formats := fun _ => none
  defaultFormat := ""
  regex := fun _ => none
  errHandler := fun _ => onErrorThrow

/-- The two ways accept an array of two booleans. -/
theorem validation_agrees_booleans :
    streamed wholeNumbers booleanItems (.array (boolsThenNulls 2 0)) =
      validated wholeNumbers booleanItems (.array (boolsThenNulls 2 0)) ∧
    validated wholeNumbers booleanItems (.array (boolsThenNulls 2 0)) =
      some (.array [.bool true, .bool true]) := by
  have hsample : IsSample (2 ^ 32 - 1) (booleanItems : Json ℤ) := Or.inl rfl
  refine ⟨(validation_agrees wholeNumbers).1 _ _ hsample.wellTyped hsample.numberFree
    (shortOn_of_bounded hsample.shortTypes ?_),
    validated_boolsThenNulls _ (by decide) (by decide)⟩
  simp [boolsThenNulls, Doc.Bounded, Doc.BoundedElements]

/-- Both refuse an array where a boolean has to be, of any length. -/
example (nulls : ℕ) : streamed wholeNumbers booleanSchema (.array (boolsThenNulls 0 nulls)) =
    validated wholeNumbers booleanSchema (.array (boolsThenNulls 0 nulls)) := by
  have hsample : IsSample 0 (booleanSchema : Json ℤ) := Or.inr (Or.inl rfl)
  refine streamed_eq_validated hsample.wellTyped hsample.numberFree fun j hread => ?_
  rw [read_boolsThenNulls] at hread
  cases hread
  exact walksShort_of_refused rfl

/-- An array of `2 ^ 32` nulls is rejected by the parser and accepted by
`Json::validate`. -/
theorem validation_disagrees :
    WellTyped (booleanItems : Json ℤ) ∧ NumberFree (booleanItems : Json ℤ) ∧
    streamed wholeNumbers booleanItems (.array (boolsThenNulls 0 (2 ^ 32))) = none ∧
    (validated wholeNumbers booleanItems (.array (boolsThenNulls 0 (2 ^ 32)))).isSome := by
  have hsample : IsSample (2 ^ 32 - 1) (booleanItems : Json ℤ) := Or.inl rfl
  refine ⟨hsample.wellTyped, hsample.numberFree,
    streamed_boolsThenNulls _ 0 (by decide), ?_⟩
  rw [validated_boolsThenNulls _ (by decide) (by decide)]
  rfl

end Agreement

end Json

end Gearbox
