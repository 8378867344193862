import Gearbox.Json.Order
import Gearbox.Json.Text

/-!
# Equality

`Json::equals` takes all empty nodes for the same: null, the empty string, the empty object and
the empty array. The members of an object are looked up in the other object, and the elements of
an array are compared with the two trees in exchanged roles. The loop over an array counts in
`unsigned int`, so that it does not end for two arrays with the same `2 ^ 32` elements in front.

A floating point number has a value, or it is not a number and equal to nothing.
-/

namespace Gearbox

namespace Json

open Refinement

variable {D V : Type} (value : D → Option V)

section Nullified

mutual

/-- The tree with null for every empty node, and with the values of the floating point numbers. -/
def nullified : Json D → Json (Option V)
  | .undef => .undef
  | .bool x => .bool x
  | .int x => .int x
  | .double x => .double (value x)
  | .string x => if x = "" then .undef else .string x
  | .object o => if o.isEmpty then .undef else .object (nullifiedMembers o)
  | .array a => if a.isEmpty then .undef else .array (nullifiedElements a)

def nullifiedMembers : List (String × Json D) → List (String × Json (Option V))
  | [] => []
  | (k, j) :: rest => (k, nullified j) :: nullifiedMembers rest

def nullifiedElements : List (Json D) → List (Json (Option V))
  | [] => []
  | j :: rest => nullified j :: nullifiedElements rest

end

mutual

/-- Every floating point number has a value. -/
def Numbers : Json D → Prop
  | .double x => (value x).isSome
  | .object o => NumbersMembers o
  | .array a => NumbersElements a
  | _ => True

def NumbersMembers : List (String × Json D) → Prop
  | [] => True
  | (_, j) :: rest => Numbers j ∧ NumbersMembers rest

def NumbersElements : List (Json D) → Prop
  | [] => True
  | j :: rest => Numbers j ∧ NumbersElements rest

end

/-- The keys of the objects are in order, and every floating point number has a value. -/
structure Proper (j : Json D) : Prop where
  ordered : j.Ordered
  numbers : Numbers value j

variable {value}

theorem nullifiedMembers_eq (o : List (String × Json D)) :
    nullifiedMembers value o = o.map fun m => (m.1, nullified value m.2) := by
  induction o with
  | nil => rw [nullifiedMembers, List.map_nil]
  | cons m rest ih => rw [nullifiedMembers, ih, List.map_cons]

theorem nullifiedElements_eq (a : List (Json D)) :
    nullifiedElements value a = a.map (nullified value) := by
  induction a with
  | nil => rw [nullifiedElements, List.map_nil]
  | cons j rest ih => rw [nullifiedElements, ih, List.map_cons]

theorem nullified_eq_undef {j : Json D} : nullified value j = .undef ↔ j.empty = true := by
  cases j with
  | undef => simp [nullified, empty]
  | bool x => simp [nullified, empty]
  | int x => simp [nullified, empty]
  | double x => simp [nullified, empty]
  | string x => simp [nullified, empty]
  | object o => simp [nullified, empty]
  | array a => simp [nullified, empty]

theorem type_nullified {j : Json D} (h : j.empty = false) :
    (nullified value j).type = j.type := by
  cases j with
  | undef => cases h
  | bool x => rfl
  | int x => rfl
  | double x => rfl
  | string x =>
      rw [nullified, if_neg (by simpa [empty] using h)]
      rfl
  | object o =>
      rw [nullified, if_neg (by simpa [empty] using h)]
      rfl
  | array a =>
      rw [nullified, if_neg (by simpa [empty] using h)]
      rfl

/-- In two objects of the same size, all members are found if and only if the members are the
same. -/
theorem forall_lookup_iff {o p : List (String × Json D)} (ho : Assoc.Sorted o)
    (hp : Assoc.Sorted p) (hlength : o.length = p.length) :
    (∀ m ∈ p, (o.lookup m.1).map (nullified value) = some (nullified value m.2)) ↔
      nullifiedMembers value o = nullifiedMembers value p := by
  have ho' := (Assoc.sorted_map (nullified value)).mpr ho
  have hp' := (Assoc.sorted_map (nullified value)).mpr hp
  rw [nullifiedMembers_eq, nullifiedMembers_eq]
  constructor
  · intro h
    apply ho'.eq_of_subset hp'
    · rw [List.length_map, List.length_map, hlength]
    · intro e he
      obtain ⟨m, hm, rfl⟩ := List.mem_map.mp he
      obtain ⟨v, hv, heq⟩ := Option.map_eq_some_iff.mp (h m hm)
      refine List.mem_map.mpr ⟨(m.1, v), (Assoc.mem_iff_lookup ho).mpr hv, ?_⟩
      rw [heq]
  · intro h m hm
    have hmem : (m.1, nullified value m.2) ∈ o.map fun m => (m.1, nullified value m.2) := by
      rw [h]
      exact List.mem_map_of_mem hm
    obtain ⟨m', hm', heq⟩ := List.mem_map.mp hmem
    obtain ⟨hkey, hvalue⟩ := Prod.mk.inj heq
    have hlookup : o.lookup m.1 = some m'.2 := by
      rw [← hkey, ← Assoc.mem_iff_lookup ho]
      exact hm'
    rw [hlookup, Option.map_some, hvalue]

theorem numbersMembers_iff (o : List (String × Json D)) :
    NumbersMembers value o ↔ ∀ m ∈ o, Numbers value m.2 := by
  induction o with
  | nil => simp [NumbersMembers]
  | cons m rest ih =>
      obtain ⟨k, j⟩ := m
      simp [NumbersMembers, ih]

theorem numbersElements_iff (a : List (Json D)) :
    NumbersElements value a ↔ ∀ j ∈ a, Numbers value j := by
  induction a with
  | nil => simp [NumbersElements]
  | cons j rest ih => simp [NumbersElements, ih]

theorem Proper.members {o : List (String × Json D)} (h : Proper value (.object o)) :
    Assoc.Sorted o ∧ ∀ m ∈ o, Proper value m.2 := by
  obtain ⟨hordered, hnumbers⟩ := h
  rw [Ordered, orderedMembers_iff] at hordered
  rw [Numbers, numbersMembers_iff] at hnumbers
  exact ⟨hordered.1, fun m hm => ⟨hordered.2 m hm, hnumbers m hm⟩⟩

theorem Proper.elements {a : List (Json D)} (h : Proper value (.array a)) :
    ∀ j ∈ a, Proper value j := by
  obtain ⟨hordered, hnumbers⟩ := h
  rw [Ordered, orderedElements_iff] at hordered
  rw [Numbers, numbersElements_iff] at hnumbers
  exact fun j hj => ⟨hordered j hj, hnumbers j hj⟩

/-- An object without a key is not the same as one that has the key with null. -/
theorem nullified_ne_of_missing {a b : Json D} (ha : Proper value a) (hb : Proper value b)
    {k : String} (hobject : a.type = .object) (hnone : a.member k = none)
    (hsome : b.member k = some .undef) :
    nullified value a ≠ nullified value b := by
  cases b with
  | object p =>
      cases a with
      | object o =>
          have hmem : (k, .undef) ∈ p := (Assoc.mem_iff_lookup hb.members.1).mpr hsome
          have hp : p.isEmpty = false := List.isEmpty_eq_false_iff.mpr (List.ne_nil_of_mem hmem)
          intro heq
          rw [nullified, nullified, hp] at heq
          split at heq
          · cases heq
          · have hmembers := object.inj heq
            have hlength := congrArg List.length hmembers
            rw [nullifiedMembers_eq, nullifiedMembers_eq, List.length_map, List.length_map]
              at hlength
            have hfound := (forall_lookup_iff ha.members.1 hb.members.1 hlength).mpr hmembers
            have hfirst := hfound _ hmem
            have hnone' : o.lookup k = none := hnone
            rw [hnone'] at hfirst
            cases hfirst
      | _ => cases hobject
  | _ => cases hsome

end Nullified

section Equals

variable [DecidableEq V]

/-- `==` of two floating point numbers. -/
def sameDouble (x y : D) : Bool :=
  (value x).isSome && (value x = value y)

theorem sizeOf_lt_of_lookup {o : List (String × Json D)} {k : String} {v : Json D}
    (h : o.lookup k = some v) : sizeOf v < sizeOf o := by
  induction o with
  | nil => cases h
  | cons m rest ih =>
      obtain ⟨k', v'⟩ := m
      rw [Assoc.lookup_cons_eq] at h
      split at h
      · cases h
        simp only [List.cons.sizeOf_spec, Prod.mk.sizeOf_spec]
        omega
      · have hrest := ih h
        simp only [List.cons.sizeOf_spec, Prod.mk.sizeOf_spec]
        omega

mutual

/-- `Json::equals` -/
def equals (this other : Json D) : Except Failure Bool :=
  if other.empty && this.empty then return true
  else if other.empty || this.empty then return false
  else
    match this, other with
    | .object o, .object other => if o.length ≠ other.length then return false
      else equalsMembers o other
    | .array b, .array a => if b.length ≠ a.length then return false
      else equalsElements (2 ^ 32) a b
    | .bool x, .bool y => return x = y
    | .int x, .int y => return x = y
    | .double x, .double y => return sameDouble value x y
    | .string x, .string y => return x = y
    | .undef, .undef => return true
    | _, _ => return false
termination_by sizeOf this + sizeOf other

/-- The loop of `equals` over the members of the other object. -/
def equalsMembers (o : List (String × Json D)) :
    List (String × Json D) → Except Failure Bool
  | [] => return true
  | (key, w) :: rest =>
    match _hlookup : o.lookup key with
    | none => return false
    | some v => do
      if ← equals v w then equalsMembers o rest else return false
termination_by other => sizeOf o + sizeOf other
decreasing_by
  · have hlt := sizeOf_lt_of_lookup ‹o.lookup key = some v›
    simp only [List.cons.sizeOf_spec, Prod.mk.sizeOf_spec]
    omega
  · simp only [List.cons.sizeOf_spec, Prod.mk.sizeOf_spec]
    omega

/-- The loop of `equals` over the elements of two arrays of the same size; `n` is the number of
steps until the counter is zero again. -/
def equalsElements : ℕ → List (Json D) → List (Json D) → Except Failure Bool
  | 0, _, _ => throw .diverges
  | n + 1, x :: a, y :: b => do
    if ← equals x y then equalsElements n a b else return false
  | _ + 1, _ :: _, [] => throw .undefined
  | _ + 1, [], _ => return true
termination_by _ a b => sizeOf a + sizeOf b

end

variable {value} {x y : Json D}

theorem equals_empty (hx : x.empty = true) (hy : y.empty = true) :
    equals value x y = .ok true := by
  rw [equals.eq_def, hx, hy]
  rfl

theorem equals_empty_ne (h : x.empty ≠ y.empty) : equals value x y = .ok false := by
  rw [equals.eq_def]
  cases hx : x.empty with
  | false =>
      cases hy : y.empty with
      | false => exact absurd (hx.trans hy.symm) h
      | true => rfl
  | true =>
      cases hy : y.empty with
      | false => rfl
      | true => exact absurd (hx.trans hy.symm) h

theorem equals_type_ne (hx : x.empty = false) (hy : y.empty = false) (h : x.type ≠ y.type) :
    equals value x y = .ok false := by
  rw [equals.eq_def, hx, hy]
  simp only [Bool.and_self, Bool.or_self, Bool.false_eq_true, if_false]
  split
  · exact absurd rfl h
  · exact absurd rfl h
  · exact absurd rfl h
  · exact absurd rfl h
  · exact absurd rfl h
  · exact absurd rfl h
  · exact absurd rfl h
  · rfl

theorem equals_object {o p : List (String × Json D)} (ho : o ≠ []) (hp : p ≠ []) :
    equals value (.object o) (.object p) =
      if o.length ≠ p.length then .ok false else equalsMembers value o p := by
  have ho' : (object o).empty = false := by simpa [empty] using ho
  have hp' : (object p).empty = false := by simpa [empty] using hp
  rw [equals.eq_def, ho', hp']
  rfl

theorem equals_array {a b : List (Json D)} (ha : a ≠ []) (hb : b ≠ []) :
    equals value (.array b) (.array a) =
      if b.length ≠ a.length then .ok false else equalsElements value (2 ^ 32) a b := by
  have ha' : (array a).empty = false := by simpa [empty] using ha
  have hb' : (array b).empty = false := by simpa [empty] using hb
  rw [equals.eq_def, ha', hb']
  rfl

variable (value) in
/-- The comparison ends, and says whether the trees are the same up to empty nodes. -/
def Answers (x y : Json D) : Prop :=
  ∃ r, equals value x y = .ok r ∧ (r = true ↔ nullified value x = nullified value y)

/-- The loop over the members says whether all members are found. -/
theorem equalsMembers_eq {o q : List (String × Json D)}
    (h : ∀ m ∈ q, ∀ v, o.lookup m.1 = some v → Answers value v m.2) :
    ∃ r, equalsMembers value o q = .ok r ∧ (r = true ↔ ∀ m ∈ q,
      (o.lookup m.1).map (nullified value) = some (nullified value m.2)) := by
  induction q with
  | nil =>
      rw [equalsMembers]
      exact ⟨true, rfl, iff_of_true rfl fun m hm => absurd hm List.not_mem_nil⟩
  | cons m rest ih =>
      obtain ⟨k, w⟩ := m
      obtain ⟨r, hr, hiff⟩ := ih fun m hm => h m (List.mem_cons_of_mem _ hm)
      rw [equalsMembers, List.forall_mem_cons]
      split
      · rename_i hlookup
        have hne : (o.lookup k).map (nullified value) ≠ some (nullified value w) := by
          rw [hlookup]
          exact nofun
        exact ⟨false, rfl, iff_of_false Bool.false_ne_true fun hboth => hne hboth.1⟩
      · rename_i v hlookup
        obtain ⟨r', hr', hiff'⟩ := h (k, w) List.mem_cons_self v hlookup
        have hfirst : (o.lookup k).map (nullified value) = some (nullified value w) ↔
            r' = true := by
          rw [hlookup, Option.map_some, Option.some_inj, hiff']
        rw [hr', ok_bind, hfirst]
        cases r' with
        | false =>
            exact ⟨false, rfl, iff_of_false Bool.false_ne_true fun hboth => absurd hboth.1 nofun⟩
        | true =>
            refine ⟨r, hr, ?_⟩
            rw [hiff, and_iff_right rfl]

/-- The loop over the elements of short arrays says whether the elements are the same. -/
theorem equalsElements_eq {a b : List (Json D)} {n : ℕ} (hlength : a.length < n)
    (h : List.Forall₂ (Answers value) a b) :
    ∃ r, equalsElements value n a b = .ok r ∧
      (r = true ↔ nullifiedElements value a = nullifiedElements value b) := by
  induction h generalizing n with
  | nil =>
      obtain ⟨n, rfl⟩ := Nat.exists_eq_add_one_of_ne_zero (Nat.ne_zero_of_lt hlength)
      rw [equalsElements]
      exact ⟨true, rfl, iff_of_true rfl rfl⟩
  | cons hfirst hrest ih =>
      obtain ⟨n, rfl⟩ := Nat.exists_eq_add_one_of_ne_zero (Nat.ne_zero_of_lt hlength)
      obtain ⟨r, hr, hiff⟩ := ih (Nat.lt_of_succ_lt_succ hlength)
      obtain ⟨r', hr', hiff'⟩ := hfirst
      rw [equalsElements, hr', ok_bind, nullifiedElements, nullifiedElements, List.cons.injEq,
        ← hiff', ← hiff]
      cases r' with
      | false => exact ⟨false, rfl, iff_of_false Bool.false_ne_true fun hboth => nomatch hboth.1⟩
      | true => exact ⟨r, hr, (and_iff_right rfl).symm⟩

/-- Empty nodes are the same, and nodes of different types are not. -/
theorem answers_of (h : x.empty = false → y.empty = false → x.type = y.type →
    Answers value x y) : Answers value x y := by
  by_cases hempty : x.empty = y.empty
  · cases hx : x.empty with
    | true =>
        have hy : y.empty = true := hempty.symm.trans hx
        refine ⟨true, equals_empty hx hy, iff_of_true rfl ?_⟩
        rw [nullified_eq_undef.mpr hx, nullified_eq_undef.mpr hy]
    | false =>
        have hy : y.empty = false := hempty.symm.trans hx
        by_cases htype : x.type = y.type
        · exact h hx hy htype
        · refine ⟨false, equals_type_ne hx hy htype, iff_of_false Bool.false_ne_true ?_⟩
          intro heq
          have htypes := congrArg type heq
          rw [type_nullified hx, type_nullified hy] at htypes
          exact htype htypes
  · refine ⟨false, equals_empty_ne hempty, iff_of_false Bool.false_ne_true ?_⟩
    intro heq
    have hx : nullified value x = .undef ↔ x.empty = true := nullified_eq_undef
    rw [heq, nullified_eq_undef] at hx
    exact hempty (Bool.eq_iff_iff.mpr hx.symm)

theorem answers_of_type_ne (h : x.type ≠ y.type) : Answers value x y :=
  answers_of fun _ _ heq => absurd heq h

end Equals

section Proper

variable [DecidableEq V]

variable {value}

variable (value) in
/-- The comparisons with a tree end in both orders. -/
def Comparable (x : Json D) : Prop :=
  ∀ y, Proper value y → Answers value x y ∧ Answers value y x

/-- Objects are compared where their members are. -/
theorem answers_object {o p : List (String × Json D)} (ho : Assoc.Sorted o)
    (hp : Assoc.Sorted p) (h : ∀ m ∈ p, ∀ v, o.lookup m.1 = some v → Answers value v m.2) :
    Answers value (.object o) (.object p) := by
  apply answers_of
  intro hempty hempty' _
  have hone : o ≠ [] := by simpa [empty] using hempty
  have hpne : p ≠ [] := by simpa [empty] using hempty'
  have hnullified : nullified value (.object o) = nullified value (.object p) ↔
      nullifiedMembers value o = nullifiedMembers value p := by
    rw [nullified, nullified, if_neg (by simpa using hone), if_neg (by simpa using hpne),
      object.injEq]
  rw [Answers, equals_object hone hpne, hnullified]
  by_cases hlength : o.length = p.length
  · obtain ⟨r, hr, hiff⟩ := equalsMembers_eq h
    rw [if_neg (not_not_intro hlength), ← forall_lookup_iff ho hp hlength]
    exact ⟨r, hr, hiff⟩
  · rw [if_pos hlength]
    refine ⟨false, rfl, iff_of_false Bool.false_ne_true ?_⟩
    intro heq
    have hlengths := congrArg List.length heq
    rw [nullifiedMembers_eq, nullifiedMembers_eq, List.length_map, List.length_map] at hlengths
    exact hlength hlengths

/-- Short arrays are compared where their elements are. -/
theorem answers_array {a b : List (Json D)} (hb : b.length < 2 ^ 32 ∨ a.length < 2 ^ 32)
    (h : a.length = b.length → List.Forall₂ (Answers value) a b) :
    Answers value (.array b) (.array a) := by
  apply answers_of
  intro hempty hempty' _
  have hbne : b ≠ [] := by simpa [empty] using hempty
  have hane : a ≠ [] := by simpa [empty] using hempty'
  have hnullified : nullified value (.array b) = nullified value (.array a) ↔
      nullifiedElements value a = nullifiedElements value b := by
    rw [nullified, nullified, if_neg (by simpa using hbne), if_neg (by simpa using hane),
      array.injEq, eq_comm]
  rw [Answers, equals_array hane hbne, hnullified]
  by_cases hlength : b.length = a.length
  · rw [if_neg (not_not_intro hlength)]
    exact equalsElements_eq (by omega) (h hlength.symm)
  · rw [if_pos hlength]
    refine ⟨false, rfl, iff_of_false Bool.false_ne_true ?_⟩
    intro heq
    have hlengths := congrArg List.length heq
    rw [nullifiedElements_eq, nullifiedElements_eq, List.length_map, List.length_map] at hlengths
    exact hlength hlengths.symm

/-- Nodes that are no containers are compared by their values. -/
theorem answers_scalar {x y : Json D} (hobject : x.type ≠ .object) (harray : x.type ≠ .array)
    (hnumbers : Numbers value x) : Answers value x y := by
  apply answers_of
  intro hx hy htype
  cases x with
  | undef => cases hx
  | object o => exact absurd rfl hobject
  | array a => exact absurd rfl harray
  | bool b =>
      cases y with
      | bool c =>
          refine ⟨decide (b = c), ?_, ?_⟩
          · rw [equals.eq_def]
            rfl
          · rw [decide_eq_true_eq, nullified, nullified, bool.injEq]
      | _ => cases htype
  | int n =>
      cases y with
      | int m =>
          refine ⟨decide (n = m), ?_, ?_⟩
          · rw [equals.eq_def]
            rfl
          · rw [decide_eq_true_eq, nullified, nullified, int.injEq]
      | _ => cases htype
  | double d =>
      cases y with
      | double e =>
          refine ⟨sameDouble value d e, ?_, ?_⟩
          · rw [equals.eq_def]
            rfl
          · rw [Numbers] at hnumbers
            rw [sameDouble, hnumbers, Bool.true_and, decide_eq_true_eq, nullified, nullified,
              double.injEq]
      | _ => cases htype
  | string t =>
      cases y with
      | string w =>
          have ht : t ≠ "" := by simpa [empty] using hx
          have hw : w ≠ "" := by simpa [empty] using hy
          refine ⟨decide (t = w), ?_, ?_⟩
          · rw [equals.eq_def, hx, hy]
            rfl
          · rw [decide_eq_true_eq, nullified, nullified, if_neg ht, if_neg hw, string.injEq]
      | _ => cases htype

theorem comparable_scalar {x : Json D} (hobject : x.type ≠ .object) (harray : x.type ≠ .array)
    (hnumbers : Numbers value x) : Comparable value x := by
  intro y hy
  refine ⟨answers_scalar hobject harray hnumbers, ?_⟩
  apply answers_of
  intro _ _ htype
  rw [← htype] at hobject harray
  exact answers_scalar hobject harray hy.numbers

mutual

/-- A tree with short arrays is compared with every tree. -/
theorem comparable : ∀ x : Json D, Proper value x → x.Bounded (2 ^ 32 - 1) →
    Comparable value x
  | .object o => by
      intro hx hbounded y hy
      obtain ⟨hsorted, hmembers⟩ := hx.members
      rw [Bounded] at hbounded
      have hall := comparableMembers o hmembers hbounded
      cases y with
      | object p =>
          obtain ⟨hsorted', hmembers'⟩ := hy.members
          constructor
          · refine answers_object hsorted hsorted' fun m hm v hv => ?_
            have hmem := (Assoc.mem_iff_lookup hsorted).mpr hv
            exact (hall _ hmem m.2 (hmembers' m hm)).1
          · refine answers_object hsorted' hsorted fun m hm v hv => ?_
            have hmem := (Assoc.mem_iff_lookup hsorted').mpr hv
            exact (hall m hm v (hmembers' _ hmem)).2
      | _ => exact ⟨answers_of_type_ne nofun, answers_of_type_ne nofun⟩
  | .array a => by
      intro hx hbounded y hy
      rw [Bounded] at hbounded
      have hall := comparableElements a hx.elements hbounded.2
      cases y with
      | array b =>
          have hshort : a.length < 2 ^ 32 := by omega
          constructor
          · refine answers_array (.inl hshort) fun hlength => ?_
            refine List.forall₂_iff_zip.mpr ⟨hlength, fun {w v} hmem => ?_⟩
            have hboth := List.of_mem_zip hmem
            exact (hall v hboth.2 w (hy.elements w hboth.1)).2
          · refine answers_array (.inr hshort) fun hlength => ?_
            refine List.forall₂_iff_zip.mpr ⟨hlength, fun {v w} hmem => ?_⟩
            have hboth := List.of_mem_zip hmem
            exact (hall v hboth.1 w (hy.elements w hboth.2)).1
      | _ => exact ⟨answers_of_type_ne nofun, answers_of_type_ne nofun⟩
  | .undef => fun h _ => comparable_scalar nofun nofun h.numbers
  | .bool _ => fun h _ => comparable_scalar nofun nofun h.numbers
  | .int _ => fun h _ => comparable_scalar nofun nofun h.numbers
  | .double _ => fun h _ => comparable_scalar nofun nofun h.numbers
  | .string _ => fun h _ => comparable_scalar nofun nofun h.numbers

theorem comparableMembers : ∀ o : List (String × Json D), (∀ m ∈ o, Proper value m.2) →
    BoundedMembers (2 ^ 32 - 1) o → ∀ m ∈ o, Comparable value m.2
  | [] => fun _ _ _ hm => absurd hm List.not_mem_nil
  | (k, j) :: rest => by
      intro hproper hbounded m hm
      rw [BoundedMembers] at hbounded
      rcases List.mem_cons.mp hm with rfl | hm
      · exact comparable j (hproper _ List.mem_cons_self) hbounded.1
      · exact comparableMembers rest (fun m hm => hproper m (List.mem_cons_of_mem _ hm))
          hbounded.2 m hm

theorem comparableElements : ∀ a : List (Json D), (∀ j ∈ a, Proper value j) →
    BoundedElements (2 ^ 32 - 1) a → ∀ j ∈ a, Comparable value j
  | [] => fun _ _ _ hj => absurd hj List.not_mem_nil
  | j :: rest => by
      intro hproper hbounded j' hj'
      rw [BoundedElements] at hbounded
      rcases List.mem_cons.mp hj' with heq | hj'
      · rw [heq]
        exact comparable j (hproper _ List.mem_cons_self) hbounded.1
      · exact comparableElements rest (fun j hj => hproper j (List.mem_cons_of_mem _ hj))
          hbounded.2 j' hj'

end

end Proper

section Endless

variable [DecidableEq V] {value : D → Option V}

theorem equals_of_equalsMembers {o q : List (String × Json D)}
    (h : equalsMembers value o q = .ok true) :
    ∀ m ∈ q, ∃ v, o.lookup m.1 = some v ∧ equals value v m.2 = .ok true := by
  induction q with
  | nil => exact fun m hm => absurd hm List.not_mem_nil
  | cons m rest ih =>
      obtain ⟨k, w⟩ := m
      rw [equalsMembers] at h
      split at h
      · cases h
      · rename_i v hlookup
        obtain ⟨r, hr, h⟩ := bind_eq_ok.mp h
        cases r with
        | false => cases h
        | true =>
            intro m hm
            rcases List.mem_cons.mp hm with rfl | hm
            · exact ⟨v, hlookup, hr⟩
            · exact ih h m hm

theorem equals_of_equalsElements {a : List (Json D)} {n : ℕ}
    (h : equalsElements value n a a = .ok true) :
    a.length < n ∧ ∀ j ∈ a, equals value j j = .ok true := by
  induction a generalizing n with
  | nil =>
      cases n with
      | zero =>
          rw [equalsElements] at h
          cases h
      | succ n => exact ⟨Nat.succ_pos n, fun j hj => absurd hj List.not_mem_nil⟩
  | cons j rest ih =>
      cases n with
      | zero =>
          rw [equalsElements] at h
          cases h
      | succ n =>
          rw [equalsElements] at h
          obtain ⟨r, hr, h⟩ := bind_eq_ok.mp h
          cases r with
          | false => cases h
          | true =>
              obtain ⟨hlength, hrest⟩ := ih h
              refine ⟨Nat.succ_lt_succ hlength, fun j' hj' => ?_⟩
              rcases List.mem_cons.mp hj' with rfl | hj'
              · exact hr
              · exact hrest j' hj'

mutual

/-- A tree that is found to be equal to itself has short arrays. -/
theorem bounded_of_equals : ∀ j : Json D, j.Ordered → equals value j j = .ok true →
    j.Bounded (2 ^ 32 - 1)
  | .object o => by
      intro hordered h
      rw [Ordered, orderedMembers_iff] at hordered
      rw [Bounded]
      by_cases ho : o = []
      · rw [ho]
        trivial
      · rw [equals_object ho ho, if_neg (not_not_intro rfl)] at h
        refine boundedMembers_of_equals o hordered.2 fun m hm => ?_
        obtain ⟨v, hv, heq⟩ := equals_of_equalsMembers h m hm
        rw [(Assoc.mem_iff_lookup hordered.1).mp hm] at hv
        cases hv
        exact heq
  | .array a => by
      intro hordered h
      rw [Ordered, orderedElements_iff] at hordered
      rw [Bounded]
      by_cases ha : a = []
      · rw [ha]
        exact ⟨Nat.zero_le _, trivial⟩
      · rw [equals_array ha ha, if_neg (not_not_intro rfl)] at h
        obtain ⟨hlength, helements⟩ := equals_of_equalsElements h
        exact ⟨by omega, boundedElements_of_equals a hordered helements⟩
  | .undef => fun _ _ => trivial
  | .bool _ => fun _ _ => trivial
  | .int _ => fun _ _ => trivial
  | .double _ => fun _ _ => trivial
  | .string _ => fun _ _ => trivial

theorem boundedMembers_of_equals : ∀ o : List (String × Json D), (∀ m ∈ o, m.2.Ordered) →
    (∀ m ∈ o, equals value m.2 m.2 = .ok true) → BoundedMembers (2 ^ 32 - 1) o
  | [] => fun _ _ => trivial
  | (_, j) :: rest => fun hordered h =>
      ⟨bounded_of_equals j (hordered _ List.mem_cons_self) (h _ List.mem_cons_self),
        boundedMembers_of_equals rest (fun m hm => hordered m (List.mem_cons_of_mem _ hm))
          fun m hm => h m (List.mem_cons_of_mem _ hm)⟩

theorem boundedElements_of_equals : ∀ a : List (Json D), (∀ j ∈ a, j.Ordered) →
    (∀ j ∈ a, equals value j j = .ok true) → BoundedElements (2 ^ 32 - 1) a
  | [] => fun _ _ => trivial
  | j :: rest => fun hordered h =>
      ⟨bounded_of_equals j (hordered _ List.mem_cons_self) (h _ List.mem_cons_self),
        boundedElements_of_equals rest (fun j hj => hordered j (List.mem_cons_of_mem _ hj))
          fun j hj => h j (List.mem_cons_of_mem _ hj)⟩

end

end Endless

section Lawful

variable {value : D → Option V}

mutual

/-- The arrays keep their lengths. -/
theorem bounded_nullified (n : ℕ) : ∀ j : Json D, (nullified value j).Bounded n ↔ j.Bounded n
  | .object o => by
      rw [nullified]
      split
      · rename_i ho
        rw [List.isEmpty_iff.mp ho]
        exact Iff.rfl
      · rw [Bounded, Bounded]
        exact boundedMembers_nullified n o
  | .array a => by
      rw [nullified]
      split
      · rename_i ha
        rw [List.isEmpty_iff.mp ha]
        exact iff_of_true trivial ⟨Nat.zero_le n, trivial⟩
      · rw [Bounded, Bounded, boundedElements_nullified n a, nullifiedElements_eq,
          List.length_map]
  | .string t => by
      rw [nullified]
      split
      · exact Iff.rfl
      · exact Iff.rfl
  | .undef => Iff.rfl
  | .bool _ => Iff.rfl
  | .int _ => Iff.rfl
  | .double _ => Iff.rfl

theorem boundedMembers_nullified (n : ℕ) : ∀ o : List (String × Json D),
    BoundedMembers n (nullifiedMembers value o) ↔ BoundedMembers n o
  | [] => Iff.rfl
  | (_, j) :: rest => by
      rw [nullifiedMembers, BoundedMembers, BoundedMembers, bounded_nullified n j,
        boundedMembers_nullified n rest]

theorem boundedElements_nullified (n : ℕ) : ∀ a : List (Json D),
    BoundedElements n (nullifiedElements value a) ↔ BoundedElements n a
  | [] => Iff.rfl
  | j :: rest => by
      rw [nullifiedElements, BoundedElements, BoundedElements, bounded_nullified n j,
        boundedElements_nullified n rest]

end

variable [DecidableEq V]

variable (value) in
/-- The comparison is an equivalence and says whether the trees are the same up to empty nodes. It
tells integers from floating point numbers, and a missing key from a key of null. -/
structure Lawful (a b c : Json D) : Prop where
  refl : equals value a a = .ok true
  symm : equals value b a = equals value a b
  trans : equals value a b = .ok true → equals value b c = .ok true →
    equals value a c = .ok true
  same : Answers value a b
  kinds : a.type = .int → b.type = .double → equals value a b = .ok false
  missing : ∀ k, a.type = .object → a.member k = none → b.member k = some .undef →
    equals value a b = .ok false

variable {a b c : Json D}

/-- The answer is determined by the trees without empty nodes. -/
theorem Answers.eq_true_iff (h : Answers value a b) :
    equals value a b = .ok true ↔ nullified value a = nullified value b := by
  obtain ⟨r, hr, hiff⟩ := h
  rw [hr, Except.ok.injEq, hiff]

theorem Answers.eq_false (h : Answers value a b)
    (hne : nullified value a ≠ nullified value b) : equals value a b = .ok false := by
  obtain ⟨r, hr, hiff⟩ := h
  cases r with
  | false => exact hr
  | true => exact absurd (hiff.mp rfl) hne

theorem Answers.symm (h : Answers value a b) (h' : Answers value b a) :
    equals value b a = equals value a b := by
  by_cases heq : nullified value a = nullified value b
  · rw [h.eq_true_iff.mpr heq, h'.eq_true_iff.mpr heq.symm]
  · rw [h.eq_false heq, h'.eq_false fun heq' => heq heq'.symm]

theorem lawful_of_bounded (ha : Proper value a) (hbounded : a.Bounded (2 ^ 32 - 1))
    (hb : Proper value b) (hc : Proper value c) : Lawful value a b c := by
  have hcompare := comparable a ha hbounded
  have hab := hcompare b hb
  refine ⟨?_, hab.1.symm hab.2, ?_, hab.1, ?_, ?_⟩
  · exact (hcompare a ha).1.eq_true_iff.mpr rfl
  · intro htrue htrue'
    have hsame := hab.1.eq_true_iff.mp htrue
    have hbounded' : b.Bounded (2 ^ 32 - 1) := by
      have hiff : (nullified value b).Bounded (2 ^ 32 - 1) ↔ b.Bounded (2 ^ 32 - 1) :=
        bounded_nullified _ b
      rw [← hiff, ← hsame, bounded_nullified]
      exact hbounded
    have hbc := (comparable b hb hbounded' c hc).1
    exact (hcompare c hc).1.eq_true_iff.mpr (hsame.trans (hbc.eq_true_iff.mp htrue'))
  · intro hint hdouble
    refine hab.1.eq_false fun heq => ?_
    cases a with
    | int n =>
        cases b with
        | double x => cases heq
        | _ => cases hdouble
    | _ => cases hint
  · intro k hobject hnone hsome
    exact hab.1.eq_false (nullified_ne_of_missing ha hb hobject hnone hsome)

/-- The comparison with a tree is lawful if and only if its arrays are short. -/
theorem lawful_iff (ha : Proper value a) :
    (∀ b c, Proper value b → Proper value c → Lawful value a b c) ↔
      a.Bounded (2 ^ 32 - 1) := by
  constructor
  · intro h
    exact bounded_of_equals a ha.ordered (h a a ha ha).refl
  · intro hbounded b c hb hc
    exact lawful_of_bounded ha hbounded hb hc

/-- An object with an array of a number and null. -/
def sampleTree : Json (Option ℤ) :=
  .object [("k", .array [.double (some 1), .undef])]

theorem lawful_sample : Proper id sampleTree ∧
    ∀ b c, Proper id b → Proper id c → Lawful id sampleTree b c := by
  have hproper : Proper id sampleTree := by
    refine ⟨?_, ?_⟩
    · simp [sampleTree, Ordered, OrderedMembers, OrderedElements, Assoc.Sorted]
    · simp [sampleTree, Numbers, NumbersMembers, NumbersElements]
  refine ⟨hproper, (lawful_iff hproper).mpr ?_⟩
  simp [sampleTree, Bounded, BoundedMembers, BoundedElements]

theorem proper_replicate (n : ℕ) :
    Proper (id : Option ℤ → Option ℤ) (.array (List.replicate n .undef)) := by
  refine ⟨?_, ?_⟩
  · rw [Ordered, orderedElements_iff]
    intro j hj
    rw [List.eq_of_mem_replicate hj]
    trivial
  · rw [Numbers, numbersElements_iff]
    intro j hj
    rw [List.eq_of_mem_replicate hj]
    trivial

/-- An array of `2 ^ 32` nulls is not found to be equal to itself. -/
theorem not_lawful : ¬ ∀ a b c : Json (Option ℤ), Proper id a → Proper id b → Proper id c →
    Lawful id a b c := by
  intro hall
  have hproper := proper_replicate (2 ^ 32)
  have hrefl := (hall _ _ _ hproper hproper hproper).refl
  have hbounded := bounded_of_equals _ hproper.ordered hrefl
  rw [Bounded, List.length_replicate] at hbounded
  exact absurd hbounded.1 (by omega)

end Lawful

end Json

end Gearbox
