import Gearbox.Json.Conversion
import Gearbox.Json.Text

/-!
# The second validation

`Json::validate` converts numbers and fills in defaults. A default is put in as the schema
has it: only the value itself is converted, and nothing is filled in within it. So a second
validation may still change what the first has put in.
-/

namespace Gearbox

namespace Json

open Refinement

variable {D : Type}

section Everywhere

mutual

/-- The property holds of every value that is looked at, with the schema that governs it. -/
def Everywhere (P : Json D → Json D → Prop) (s : Json D) : Json D → Prop
  | .object o => P s (.object o) ∧ EverywhereMembers P s o
  | .array a => P s (.array a) ∧ EverywhereElements P s (toUInt32 a.length) 0 a
  | j => P s j

def EverywhereMembers (P : Json D → Json D → Prop) (s : Json D) :
    List (String × Json D) → Prop
  | [] => True
  | (k, j) :: rest =>
    (∀ c, s.childKey k = some c → Everywhere P c j) ∧ EverywhereMembers P s rest

def EverywhereElements (P : Json D → Json D → Prop) (s : Json D) (size i : ℕ) :
    List (Json D) → Prop
  | [] => True
  | j :: rest => (i < size → ∀ c, s.childIndex i = some c → Everywhere P c j) ∧
    EverywhereElements P s size (i + 1) rest

end

/-- Nothing is to be done for the value: an object has every key for which there is a
default, and an integer is not to be a number. -/
def Finished (s : Json D) : Json D → Prop
  | .object o => ∀ k, (s.defaultFor k).isSome → (o.lookup k).isSome
  | .int _ => ¬ AdmitsNumber s
  | _ => True

/-- What is put into the value is a number or string or the like, or nothing is to be done
for any part of it. -/
def FinishedDefaults (s : Json D) : Json D → Prop
  | .object o => ∀ k p d, o.lookup k = none → s.property k = some p →
    p.member "default" = some d → d.type = .int ∨ Everywhere Finished p d
  | _ => True

theorem everywhereElements_of_le (P : Json D → Json D → Prop) (s : Json D) {size i : ℕ}
    (h : size ≤ i) (a : List (Json D)) : EverywhereElements P s size i a := by
  induction a generalizing i with
  | nil => trivial
  | cons j rest ih =>
      rw [EverywhereElements]
      exact ⟨fun hlt => absurd hlt (by omega), ih (by omega)⟩

end Everywhere

section Scalars

variable {env : Env D} {s j j' : Json D}

theorem strings_of_fixNumbers {a : List (Json D)} (h : fixNumbers env a j = .ok j') :
    ∀ t ∈ a, t.type = .string := by
  induction a generalizing j with
  | nil =>
      intro t ht
      cases ht
  | cons t rest ih =>
      cases t with
      | string v =>
          rw [List.forall_mem_cons]
          exact ⟨rfl, ih h⟩
      | _ => cases h

/-- A value stays as it is, or it is an integer that becomes a number. -/
theorem typeFixup_cases (h : typeFixup env s j = .ok j') :
    (j' = j ∧ ∀ n, j = .int n → ¬ AdmitsNumber s) ∨
      AdmitsNumber s ∧ ShortList s ∧ ∃ n, j = .int n ∧ j' = .double (env.ofInt (toInt32 n)) := by
  by_cases hs : AdmitsNumber s
  · by_cases hj : j.type = .int
    · cases j with
      | int n =>
          obtain ⟨hshort, hj'⟩ := (typeFixup_int hs n j').mp h
          exact .inr ⟨hs, hshort, n, rfl, hj'⟩
      | _ => cases hj
    · rw [← value?_eq_some, typeFixup_of_ne_int hj, Option.map_eq_some_iff] at h
      obtain ⟨_, -, heq⟩ := h
      refine .inl ⟨heq.symm, ?_⟩
      rintro n rfl
      exact absurd rfl hj
  · have hnumber : NotNumber s := by
      intro t ht
      refine ⟨?_, ?_⟩
      · rintro rfl
        exact hs (.inl ht)
      · rintro a rfl hmem
        obtain ⟨hfix, hlength⟩ := (typeFixup_array ht j j').mp h
        rw [List.take_of_length_le (Nat.le_of_lt hlength)] at hfix
        exact hs (.inr ⟨a, ht, strings_of_fixNumbers hfix, hmem⟩)
    exact .inl ⟨typeFixup_of_notNumber hnumber h, fun _ _ => hs⟩

theorem wholeScalar_eq_some : wholeScalar env s j = some j' ↔
    validType onErrorThrow s j.type = .ok true ∧ typeFixup env s j = .ok j' ∧
      (j = .undef ∨ validValue env onErrorThrow s j' = .ok true) := by
  cases j with
  | undef =>
      simp only [wholeScalar, Option.bind_eq_bind, Option.bind_eq_some_iff, accepts_eq_some,
        value?_eq_some, true_or, and_true, type, exists_and_left, exists_const]
  | _ =>
      simp only [wholeScalar, Option.bind_eq_bind, Option.bind_eq_some_iff, accepts_eq_some,
        value?_eq_some, reduceCtorEq, false_or, exists_and_left, exists_const, pure,
        Option.some.injEq]
      refine and_congr_right fun _ => ?_
      constructor
      · rintro ⟨_, hfix, hvalue, rfl⟩
        exact ⟨hfix, hvalue⟩
      · rintro ⟨hfix, hvalue⟩
        exact ⟨_, hfix, hvalue, rfl⟩

theorem wholeScalar_idem (h : wholeScalar env s j = some j') :
    wholeScalar env s j' = some j' := by
  obtain ⟨htype, hfix, hvalue⟩ := wholeScalar_eq_some.mp h
  rw [wholeScalar_eq_some]
  rcases typeFixup_cases hfix with ⟨rfl, -⟩ | ⟨hs, hshort, n, rfl, rfl⟩
  · exact ⟨htype, hfix, hvalue⟩
  · refine ⟨validType_number hs hshort (.inr rfl), typeFixup_idem hfix, .inr ?_⟩
    exact hvalue.resolve_left fun heq => by cases heq

theorem wholeScalar_eq_self_iff (h : wholeScalar env s j = some j') :
    j' = j ↔ ∀ n, j = .int n → ¬ AdmitsNumber s := by
  obtain ⟨-, hfix, -⟩ := wholeScalar_eq_some.mp h
  rcases typeFixup_cases hfix with ⟨rfl, hint⟩ | ⟨hs, -, n, rfl, rfl⟩
  · exact ⟨fun _ => hint, fun _ => rfl⟩
  · exact ⟨fun heq => (by cases heq), fun hint => absurd hs (hint n rfl)⟩

end Scalars

section Objects

variable {env : Env D} {order : Order D} {s : Json D}

/-- What is added to an object is there after it. -/
theorem mem_addMembers {added o : List (String × Json D)} (hnodup : (added.map Prod.fst).Nodup)
    (hmissing : ∀ k ∈ added.map Prod.fst, o.lookup k = none) (m : String × Json D) :
    m ∈ addMembers added o ↔ m ∈ added ∨ m ∈ o := by
  induction added generalizing o with
  | nil => simp [addMembers]
  | cons e rest ih =>
      obtain ⟨k, v⟩ := e
      rw [List.map_cons, List.nodup_cons] at hnodup
      have hk : o.lookup k = none := hmissing k (by simp)
      have hhead : addMembers ((k, v) :: rest) o = addMembers rest (Assoc.insertKey k v o) :=
        congrArg (addMembers rest) (Assoc.modifyKey_insertKey hk .undef fun _ => v)
      have hrest : ∀ k' ∈ rest.map Prod.fst, (Assoc.insertKey k v o).lookup k' = none := by
        intro k' hk'
        have hne : k' ≠ k := by
          rintro rfl
          exact hnodup.1 hk'
        rw [Assoc.lookup_insertKey_of_ne hne]
        exact hmissing k' (List.mem_cons_of_mem _ hk')
      rw [hhead, ih hnodup.2 hrest, Assoc.mem_insertKey, List.mem_cons]
      exact or_left_comm.trans or_assoc.symm

theorem map_fst_defaultOf {object : Json D} {k : String} {added : List (String × Json D)}
    (h : defaultOf env s object k = some added) : (added.map Prod.fst).Sublist [k] := by
  simp only [defaultOf, Option.bind_eq_bind, Option.bind_eq_some_iff] at h
  obtain ⟨p, -, h⟩ := h
  cases hd : p.member "default" with
  | none =>
      simp only [hd] at h
      cases h
      exact List.nil_sublist _
  | some d =>
      simp only [hd] at h
      by_cases hk : object.hasKey k
      · rw [if_pos hk] at h
        cases h
        exact List.nil_sublist _
      · simp only [if_neg hk, Option.bind_eq_some_iff] at h
        obtain ⟨_, -, _, -, hadded⟩ := h
        cases hadded
        exact .refl _

theorem map_fst_defaultsLoop {object : Json D} {names : List String}
    {added : List (String × Json D)} (h : defaultsLoop env s object names = some added) :
    (added.map Prod.fst).Sublist names := by
  induction names generalizing added with
  | nil =>
      cases h
      exact .slnil
  | cons k rest ih =>
      simp only [defaultsLoop, Option.bind_eq_bind, Option.bind_eq_some_iff] at h
      obtain ⟨added₁, h₁, added₂, h₂, hadded⟩ := h
      cases hadded
      rw [List.map_append]
      exact (map_fst_defaultOf h₁).append (ih h₂)

/-- No property has two entries. -/
def NodupNames (s : Json D) : Prop :=
  ∀ names, s.properties = .ok names → names.Nodup

theorem hasKey_eq_false_iff (o : List (String × Json D)) (k : String) :
    (Json.object o).hasKey k = false ↔ o.lookup k = none := by
  rw [hasKey, member]
  exact Option.isSome_eq_false_iff.trans Option.isNone_iff_eq_none

/-- The members of an object that was completed. -/
theorem mem_complete (hs : NodupNames s) {o o' : List (String × Json D)}
    (h : complete env s o = some (.object o')) (m : String × Json D) :
    m ∈ o' ↔ m ∈ o ∨ o.lookup m.1 = none ∧ filled env s m.1 = some m.2 := by
  simp only [complete, Option.bind_eq_bind, Option.bind_eq_some_iff, value?_eq_some] at h
  obtain ⟨names, hnames, added, hadded, _, -, ho'⟩ := h
  cases ho'
  have hmem : ∀ k v, (k, v) ∈ added ↔ o.lookup k = none ∧ filled env s k = some v := by
    intro k v
    rw [mem_defaultsLoop hadded, hasKey_eq_false_iff, mem_properties hnames]
    refine and_iff_right_of_imp fun hfilled => ?_
    obtain ⟨p, hp, -⟩ := Option.bind_eq_some_iff.mp hfilled.2
    rw [hp]
    rfl
  rw [mem_addMembers, hmem, or_comm]
  · exact (map_fst_defaultsLoop hadded).nodup (hs names hnames)
  · intro k hk
    obtain ⟨⟨_, v⟩, hv, rfl⟩ := List.mem_map.mp hk
    exact ((hmem _ v).mp hv).1

theorem defaultOf_of_finished {o : List (String × Json D)} (h : Finished s (.object o))
    {k : String} (hk : (s.property k).isSome) :
    defaultOf env s (.object o) k = some [] := by
  obtain ⟨p, hp⟩ := Option.isSome_iff_exists.mp hk
  rw [defaultOf, hp]
  cases hd : p.member "default" with
  | none => simp [hd]
  | some d =>
      have hkey : (Json.object o).hasKey k = true := by
        apply h k
        rw [defaultFor, hp, Option.bind_some, hd]
        rfl
      simp [hd, hkey]

/-- Nothing is added to an object that has every key for which there is a default. -/
theorem defaultsLoop_of_finished {o : List (String × Json D)} (h : Finished s (.object o))
    {names : List String} (hnames : ∀ k ∈ names, (s.property k).isSome) :
    defaultsLoop env s (.object o) names = some [] := by
  induction names with
  | nil => rfl
  | cons k rest ih =>
      rw [List.forall_mem_cons] at hnames
      rw [defaultsLoop, defaultOf_of_finished h hnames.1, ih hnames.2]
      rfl

theorem complete_eq_self {o : List (String × Json D)} {j : Json D}
    (h : complete env s o = some j) (hfinished : Finished s (.object o)) : j = .object o := by
  simp only [complete, Option.bind_eq_bind, Option.bind_eq_some_iff, value?_eq_some] at h
  obtain ⟨names, hnames, added, hadded, _, -, hj⟩ := h
  rw [defaultsLoop_of_finished hfinished fun k => (mem_properties hnames).mp] at hadded
  cases hadded
  cases hj
  rfl

theorem finished_of_complete {o o' : List (String × Json D)}
    (h : complete env s o = some (.object o')) : Finished s (.object o') := by
  intro k hk
  obtain ⟨_, ho', hkept, hfilled⟩ := lookup_complete h
  cases ho'
  cases hlookup : o.lookup k with
  | some x =>
      rw [hkept k x hlookup]
      rfl
  | none =>
      obtain ⟨d, hd⟩ := Option.isSome_iff_exists.mp hk
      obtain ⟨v, hv⟩ := filled_of_complete h hlookup hd
      rw [hfilled k hlookup, hv]
      rfl

theorem complete_complete {o o' : List (String × Json D)}
    (h : complete env s o = some (.object o')) : complete env s o' = some (.object o') := by
  have hfinished := finished_of_complete h
  simp only [complete, Option.bind_eq_bind, Option.bind_eq_some_iff, value?_eq_some] at h ⊢
  obtain ⟨names, hnames, added, hadded, u, hrequires, ho'⟩ := h
  cases ho'
  exact ⟨names, hnames, [],
    defaultsLoop_of_finished hfinished fun k => (mem_properties hnames).mp, u, hrequires, rfl⟩

end Objects

section Once

variable {env : Env D}

theorem map_fst_conformMembers {order : Order D} {s : Json D} {o o' : List (String × Json D)}
    (h : conformMembers env order s o = some o') : o'.map Prod.fst = o.map Prod.fst := by
  induction o generalizing o' with
  | nil =>
      cases h
      rfl
  | cons m rest ih =>
      obtain ⟨k, j⟩ := m
      simp only [conformMembers, Option.bind_eq_bind, Option.bind_eq_some_iff] at h
      obtain ⟨_, -, _, -, rest', hrest', ho'⟩ := h
      cases ho'
      rw [List.map_cons, List.map_cons, ih hrest']

theorem finished_congr {s : Json D} {o o' : List (String × Json D)}
    (h : o'.map Prod.fst = o.map Prod.fst) :
    Finished s (.object o') ↔ Finished s (.object o) := by
  simp only [Finished, Assoc.isSome_lookup, h]

/-- An object stays as it is if its members do and nothing is added. -/
theorem conform_object_eq_self_iff {order : Order D} {s j' : Json D}
    {o o₁ : List (String × Json D)} (ho₁ : conformMembers env order s o = some o₁)
    (h : complete env s o₁ = some j') :
    j' = .object o ↔ Finished s (.object o) ∧ o₁ = o := by
  have hfinished := finished_congr (s := s) (map_fst_conformMembers ho₁)
  constructor
  · rintro rfl
    have hobject := finished_of_complete h
    have hself := complete_eq_self h (hfinished.mpr hobject)
    cases hself
    exact ⟨hobject, rfl⟩
  · rintro ⟨hobject, rfl⟩
    exact complete_eq_self h hobject

theorem conform_scalar (env : Env D) (order : Order D) (s : Json D) {j : Json D}
    (hobject : j.type ≠ .object) (harray : j.type ≠ .array) :
    conform env order s j = order.scalar s j := by
  cases j with
  | object o => exact absurd rfl hobject
  | array a => exact absurd rfl harray
  | _ => rfl

theorem conform_scalar_idem {s j j' : Json D} (hobject : j.type ≠ .object)
    (harray : j.type ≠ .array) (h : conform env (whole env) s j = some j') :
    conform env (whole env) s j' = some j' := by
  rw [conform_scalar env (whole env) s hobject harray] at h
  have hidem := wholeScalar_idem h
  obtain ⟨-, hfix, -⟩ := wholeScalar_eq_some.mp h
  rcases typeFixup_cases hfix with ⟨rfl, -⟩ | ⟨-, -, n, rfl, rfl⟩
  · rw [conform_scalar env (whole env) s hobject harray]
    exact hidem
  · exact hidem

theorem conform_scalar_eq_self_iff {s j j' : Json D} (hobject : j.type ≠ .object)
    (harray : j.type ≠ .array) (h : conform env (whole env) s j = some j') :
    j' = j ↔ Everywhere Finished s j := by
  rw [conform_scalar env (whole env) s hobject harray] at h
  rw [wholeScalar_eq_self_iff h]
  cases j with
  | object o => exact absurd rfl hobject
  | array a => exact absurd rfl harray
  | _ => simp [Everywhere, Finished]

mutual

/-- What is accepted stays as it is if and only if nothing is to be done for it. -/
theorem conform_eq_self_iff : ∀ (j : Json D) {s j' : Json D},
    conform env (whole env) s j = some j' → (j' = j ↔ Everywhere Finished s j)
  | .object o, s, j', h => by
      simp only [conform, Option.bind_eq_bind, Option.bind_eq_some_iff] at h
      obtain ⟨_, -, o₁, ho₁, hcomplete⟩ := h
      rw [conform_object_eq_self_iff ho₁ hcomplete, conformMembers_eq_self_iff o ho₁,
        Everywhere]
  | .array a, s, j', h => by
      simp only [conform, Option.bind_eq_bind, Option.bind_eq_some_iff] at h
      obtain ⟨_, -, _, -, _, -, b, hb, hj'⟩ := h
      cases hj'
      have hfinished : Finished s (.array a) := trivial
      rw [array.injEq, conformElements_eq_self_iff a hb, Everywhere, and_iff_right hfinished]
      rfl
  | .undef, s, j', h => conform_scalar_eq_self_iff (by simp [type]) (by simp [type]) h
  | .bool _, s, j', h => conform_scalar_eq_self_iff (by simp [type]) (by simp [type]) h
  | .int _, s, j', h => conform_scalar_eq_self_iff (by simp [type]) (by simp [type]) h
  | .double _, s, j', h => conform_scalar_eq_self_iff (by simp [type]) (by simp [type]) h
  | .string _, s, j', h => conform_scalar_eq_self_iff (by simp [type]) (by simp [type]) h

theorem conformMembers_eq_self_iff : ∀ (o : List (String × Json D)) {s : Json D}
    {o' : List (String × Json D)}, conformMembers env (whole env) s o = some o' →
    (o' = o ↔ EverywhereMembers Finished s o)
  | [], s, o', h => by
      cases h
      simp [EverywhereMembers]
  | (k, j) :: rest, s, o', h => by
      simp only [conformMembers, Option.bind_eq_bind, Option.bind_eq_some_iff] at h
      obtain ⟨c, hc, j', hj', rest', hrest', ho'⟩ := h
      cases ho'
      rw [EverywhereMembers, ← conformMembers_eq_self_iff rest hrest', hc]
      simp only [Option.some.injEq, forall_eq', ← conform_eq_self_iff j hj', List.cons.injEq,
        Prod.mk.injEq, true_and]

theorem conformElements_eq_self_iff : ∀ (a : List (Json D)) {s : Json D} {b : List (Json D)}
    {size i : ℕ}, conformElements env (whole env) s size i a = some b →
    (b = a ↔ EverywhereElements Finished s size i a)
  | [], s, b, size, i, h => by
      cases h
      simp [EverywhereElements]
  | j :: rest, s, b, size, i, h => by
      rw [conformElements] at h
      by_cases hi : i < size
      · simp only [if_pos hi, Option.bind_eq_bind, Option.bind_eq_some_iff] at h
        obtain ⟨c, hc, j', hj', rest', hrest', hb⟩ := h
        cases hb
        rw [EverywhereElements, ← conformElements_eq_self_iff rest hrest', hc]
        simp only [hi, Option.some.injEq, forall_eq', forall_const,
          ← conform_eq_self_iff j hj', List.cons.injEq]
      · rw [if_neg hi] at h
        cases h
        simp [everywhereElements_of_le Finished s (Nat.le_of_not_lt hi)]

end

end Once

section Twice

/-- In every schema that can be selected no property has two entries, and every default is
accepted by the schema of its property. -/
def Prepared (env : Env D) (T : Json D) : Prop :=
  ∀ sels s, T.sub sels = some s → NodupNames s ∧ ∀ k p d, s.property k = some p →
    p.member "default" = some d → ∃ d', conform env (whole env) p d = some d'

variable {env : Env D} {s : Json D}

theorem Prepared.child {c : Json D} (hs : Prepared env s) {sel : Sel}
    (hc : s.child sel = some c) : Prepared env c := by
  intro sels c' hc'
  refine hs (sel :: sels) c' ?_
  rw [sub, hc, Option.bind_some, hc']

theorem Prepared.childKey {c : Json D} (hs : Prepared env s) {k : String}
    (hc : s.childKey k = some c) : Prepared env c := by
  obtain ⟨sel, -, hsel⟩ := Option.bind_eq_some_iff.mp hc
  exact hs.child hsel

theorem Prepared.childIndex {c : Json D} (hs : Prepared env s) {i : ℕ}
    (hc : s.childIndex i = some c) : Prepared env c := by
  obtain ⟨sel, -, hsel⟩ := Option.bind_eq_some_iff.mp hc
  exact hs.child hsel

theorem childKey_of_property {k : String} {p : Json D} (h : s.property k = some p) :
    s.childKey k = some p := by
  have hselect : s.selectKey k = some (.property k) := by
    rw [selectKey, h]
    rfl
  rw [Json.childKey, hselect, Option.bind_some, Json.child, h]

/-- The member of an object stays as it is. -/
def Fixed (env : Env D) (s : Json D) (m : String × Json D) : Prop :=
  ∃ c, s.childKey m.1 = some c ∧ conform env (whole env) c m.2 = some m.2

theorem conformMembers_eq_some_self_iff (o : List (String × Json D)) :
    conformMembers env (whole env) s o = some o ↔ ∀ m ∈ o, Fixed env s m := by
  induction o with
  | nil => simp [conformMembers]
  | cons m rest ih =>
      obtain ⟨k, j⟩ := m
      rw [List.forall_mem_cons, ← ih, Fixed]
      simp only [conformMembers, Option.bind_eq_bind, Option.bind_eq_some_iff]
      constructor
      · rintro ⟨c, hc, j', hj', rest', hrest', heq⟩
        cases heq
        exact ⟨⟨c, hc, hj'⟩, hrest'⟩
      · rintro ⟨⟨c, hc, hj⟩, hrest⟩
        exact ⟨c, hc, j, hj, rest, hrest, rfl⟩

/-- A default that was put in stays as it is. -/
theorem fixed_filled_iff (hs : Prepared env s) {k : String} {p d v : Json D}
    (hp : s.property k = some p) (hd : p.member "default" = some d)
    (hv : filled env s k = some v) :
    Fixed env s (k, v) ↔ d.type = .int ∨ Everywhere Finished p d := by
  obtain ⟨d', hd'⟩ := (hs [] s rfl).2 k p d hp hd
  rw [filled, hp, Option.bind_some, hd, Option.bind_some] at hv
  have hfixed : Fixed env s (k, v) ↔ conform env (whole env) p v = some v := by
    simp only [Fixed, childKey_of_property hp, Option.some.injEq, exists_eq_left']
  rw [hfixed]
  by_cases hint : d.type = .int
  · rw [iff_true_right (.inl hint)]
    have hobject : d.type ≠ .object := by simp [hint]
    have harray : d.type ≠ .array := by simp [hint]
    have hv' : v = d' := by
      rw [conform_scalar env (whole env) p hobject harray] at hd'
      obtain ⟨-, hfix, -⟩ := wholeScalar_eq_some.mp hd'
      rw [hfix] at hv
      exact (Option.some.inj hv).symm
    rw [hv']
    exact conform_scalar_idem hobject harray hd'
  · rw [or_iff_right hint, ← conform_eq_self_iff d hd']
    rw [typeFixup_of_ne_int hint, Option.map_eq_some_iff] at hv
    obtain ⟨_, -, rfl⟩ := hv
    rw [hd', Option.some.injEq]

/-- An object is completed a second time if its members stay as they are. -/
theorem conform_complete_iff {o o' : List (String × Json D)}
    (hcontainer : ∃ u, (whole env).container s .object = some u)
    (h : complete env s o = some (.object o')) :
    conform env (whole env) s (.object o') = some (.object o') ↔ ∀ m ∈ o', Fixed env s m := by
  rw [← conformMembers_eq_some_self_iff]
  simp only [conform, Option.bind_eq_bind, Option.bind_eq_some_iff]
  constructor
  · rintro ⟨_, -, o'', ho'', hcomplete⟩
    obtain ⟨-, rfl⟩ := (conform_object_eq_self_iff ho'' hcomplete).mp rfl
    exact ho''
  · intro hmembers
    obtain ⟨u, hu⟩ := hcontainer
    exact ⟨u, hu, o', hmembers, complete_complete h⟩

/-- What is put into an object stays as it is if and only if the defaults are finished. -/
theorem fixed_defaults_iff (hs : Prepared env s) {o o₁ : List (String × Json D)} {j : Json D}
    (hkeys : o₁.map Prod.fst = o.map Prod.fst) (h : complete env s o₁ = some j) :
    (∀ k v, o₁.lookup k = none → filled env s k = some v → Fixed env s (k, v)) ↔
      FinishedDefaults s (.object o) := by
  have hmissing : ∀ k, o₁.lookup k = none ↔ o.lookup k = none := by
    intro k
    rw [← Option.not_isSome_iff_eq_none, ← Option.not_isSome_iff_eq_none,
      Assoc.isSome_lookup, Assoc.isSome_lookup, hkeys]
  constructor
  · intro hfixed k p d hk hp hd
    have hdefault : s.defaultFor k = some d := by
      rw [defaultFor, hp, Option.bind_some, hd]
    have hk₁ := (hmissing k).mpr hk
    obtain ⟨v, hv⟩ := filled_of_complete h hk₁ hdefault
    exact (fixed_filled_iff hs hp hd hv).mp (hfixed k v hk₁ hv)
  · intro hfinished k v hk hv
    obtain ⟨p, hp, hdefault⟩ := Option.bind_eq_some_iff.mp hv
    obtain ⟨d, hd, -⟩ := Option.bind_eq_some_iff.mp hdefault
    exact (fixed_filled_iff hs hp hd hv).mpr (hfinished k p d ((hmissing k).mp hk) hp hd)

mutual

/-- The second validation changes nothing if and only if the defaults that the first has put
in are finished. -/
theorem conform_conform_iff : ∀ (i : Json D) {s j : Json D}, Prepared env s →
    conform env (whole env) s i = some j →
    (conform env (whole env) s j = some j ↔ Everywhere FinishedDefaults s i)
  | .object o, s, j, hs, h => by
      simp only [conform, Option.bind_eq_bind, Option.bind_eq_some_iff] at h
      obtain ⟨u, hu, o₁, ho₁, hcomplete⟩ := h
      obtain ⟨o', rfl, -⟩ := lookup_complete hcomplete
      have hmembers := conformMembers_conformMembers_iff o hs ho₁
      have hdefaults := fixed_defaults_iff hs (map_fst_conformMembers ho₁) hcomplete
      rw [conformMembers_eq_some_self_iff] at hmembers
      rw [conform_complete_iff ⟨u, hu⟩ hcomplete, Everywhere, ← hmembers, ← hdefaults]
      simp only [mem_complete (hs [] s rfl).1 hcomplete]
      constructor
      · intro hfixed
        exact ⟨fun k v hk hv => hfixed (k, v) (.inr ⟨hk, hv⟩), fun m hm => hfixed m (.inl hm)⟩
      · rintro ⟨hadded, hkept⟩ ⟨k, v⟩ (hm | ⟨hk, hv⟩)
        · exact hkept _ hm
        · exact hadded k v hk hv
  | .array a, s, j, hs, h => by
      simp only [conform, Option.bind_eq_bind, Option.bind_eq_some_iff] at h
      obtain ⟨u, hu, u₁, hu₁, u₂, hu₂, b, hb, hj⟩ := h
      cases hj
      have hlength := length_conformElements env (whole env) s hb
      have helements := conformElements_conformElements_iff a hs hb
      have hfinished : FinishedDefaults s (.array a) := trivial
      rw [Everywhere, and_iff_right hfinished]
      refine Iff.trans ?_ helements
      simp only [conform, Option.bind_eq_bind, hu, hu₁, hu₂, hlength, Option.bind_some]
      constructor
      · intro heq
        obtain ⟨b', hb', heq⟩ := Option.bind_eq_some_iff.mp heq
        cases heq
        exact hb'
      · intro hb'
        rw [hb']
        rfl
  | .undef, s, j, hs, h => by
      simp [conform_scalar_idem (by simp [type]) (by simp [type]) h, Everywhere,
        FinishedDefaults]
  | .bool _, s, j, hs, h => by
      simp [conform_scalar_idem (by simp [type]) (by simp [type]) h, Everywhere,
        FinishedDefaults]
  | .int _, s, j, hs, h => by
      simp [conform_scalar_idem (by simp [type]) (by simp [type]) h, Everywhere,
        FinishedDefaults]
  | .double _, s, j, hs, h => by
      simp [conform_scalar_idem (by simp [type]) (by simp [type]) h, Everywhere,
        FinishedDefaults]
  | .string _, s, j, hs, h => by
      simp [conform_scalar_idem (by simp [type]) (by simp [type]) h, Everywhere,
        FinishedDefaults]

theorem conformMembers_conformMembers_iff : ∀ (o : List (String × Json D)) {s : Json D}
    {o' : List (String × Json D)}, Prepared env s →
    conformMembers env (whole env) s o = some o' →
    (conformMembers env (whole env) s o' = some o' ↔ EverywhereMembers FinishedDefaults s o)
  | [], s, o', hs, h => by
      cases h
      simp [conformMembers, EverywhereMembers]
  | (k, j) :: rest, s, o', hs, h => by
      simp only [conformMembers, Option.bind_eq_bind, Option.bind_eq_some_iff] at h
      obtain ⟨c, hc, j', hj', rest', hrest', ho'⟩ := h
      cases ho'
      have hhead := conform_conform_iff j (hs.childKey hc) hj'
      have hrest := conformMembers_conformMembers_iff rest hs hrest'
      rw [conformMembers_eq_some_self_iff] at hrest
      rw [conformMembers_eq_some_self_iff, List.forall_mem_cons, EverywhereMembers, hrest]
      simp only [Fixed, hc, Option.some.injEq, exists_eq_left', forall_eq', hhead]

theorem conformElements_conformElements_iff : ∀ (a : List (Json D)) {s : Json D}
    {b : List (Json D)} {size i : ℕ}, Prepared env s →
    conformElements env (whole env) s size i a = some b →
    (conformElements env (whole env) s size i b = some b ↔
      EverywhereElements FinishedDefaults s size i a)
  | [], s, b, size, i, hs, h => by
      cases h
      simp [conformElements, EverywhereElements]
  | j :: rest, s, b, size, i, hs, h => by
      rw [conformElements] at h
      by_cases hi : i < size
      · simp only [if_pos hi, Option.bind_eq_bind, Option.bind_eq_some_iff] at h
        obtain ⟨c, hc, j', hj', rest', hrest', hb⟩ := h
        cases hb
        have hhead := conform_conform_iff j (hs.childIndex hc) hj'
        have hrest := conformElements_conformElements_iff rest hs hrest'
        rw [EverywhereElements, ← hrest]
        simp only [hi, hc, Option.some.injEq, forall_eq', forall_const, ← hhead]
        simp only [conformElements, if_pos hi, hc, Option.bind_eq_bind, Option.bind_some,
          Option.bind_eq_some_iff]
        constructor
        · rintro ⟨j'', hj'', rest'', hrest'', heq⟩
          cases heq
          exact ⟨hj'', hrest''⟩
        · rintro ⟨hj'', hrest''⟩
          exact ⟨j', hj'', rest', hrest'', rfl⟩
      · rw [if_neg hi] at h
        cases h
        simp [conformElements, hi,
          everywhereElements_of_le FinishedDefaults s (Nat.le_of_not_lt hi)]

end

end Twice

section Normalises

variable {env : Env D} {T i j : Json D}

theorem Ordered.member {s c : Json D} (hs : s.Ordered) {k : String}
    (hc : s.member k = some c) : c.Ordered := by
  cases s with
  | object o =>
      have hmem : (k, c) ∈ o := (Assoc.mem_iff_lookup hs.1).mpr hc
      exact (orderedMembers_iff o).mp hs.2 _ hmem
  | _ => cases hc

theorem Ordered.element {s c : Json D} (hs : s.Ordered) {n : ℕ}
    (hc : s.step (.index n) = some c) : c.Ordered := by
  cases s with
  | array a => exact (orderedElements_iff a).mp hs _ (List.mem_of_getElem? hc)
  | _ => cases hc

theorem ordered_anySchema : (anySchema : Json D).Ordered := by
  simp [anySchema, Ordered, OrderedMembers, Assoc.Sorted]

theorem Ordered.child {s c : Json D} (hs : s.Ordered) {sel : Sel}
    (hc : s.child sel = some c) : c.Ordered := by
  cases sel with
  | property k =>
      obtain ⟨p, hp, hc⟩ := Option.bind_eq_some_iff.mp hc
      exact (hs.member hp).member hc
  | items => exact hs.member (Option.filter_eq_some_iff.mp hc).1
  | item n =>
      obtain ⟨p, hp, hc⟩ := Option.bind_eq_some_iff.mp hc
      exact (hs.member (Option.filter_eq_some_iff.mp hp).1).element hc
  | additional =>
      cases s with
      | undef =>
          cases hc
          exact ordered_anySchema
      | object o =>
          rw [child_additional rfl] at hc
          cases hmember : (Json.object o).member "additionalProperties" with
          | none =>
              rw [hmember] at hc
              cases hc
              exact ordered_anySchema
          | some v =>
              have hv := hs.member hmember
              rw [hmember] at hc
              cases v with
              | object o =>
                  cases hc
                  exact hv
              | bool b =>
                  cases b with
                  | true =>
                      cases hc
                      exact ordered_anySchema
                  | false => cases hc
              | _ => cases hc
      | _ => cases hc

theorem Ordered.sub {s c : Json D} (hs : s.Ordered) {sels : List Sel}
    (hc : s.sub sels = some c) : c.Ordered := by
  induction sels generalizing s with
  | nil =>
      cases hc
      exact hs
  | cons sel sels ih =>
      obtain ⟨c', hc', hc⟩ := Option.bind_eq_some_iff.mp hc
      exact ih (hs.child hc') hc

theorem Ordered.nodupNames {s : Json D} (hs : s.Ordered) : NodupNames s := by
  intro names hnames
  rw [properties] at hnames
  cases hp : s.member "properties" with
  | none =>
      rw [hp] at hnames
      cases hnames
      exact .nil
  | some p =>
      rw [hp] at hnames
      cases p with
      | object o =>
          cases hnames
          exact (hs.member hp).1.nodup
      | _ => cases hnames

/-- Every default of a schema is accepted by the schema of its property. -/
def DefaultsAccepted (env : Env D) (T : Json D) : Prop :=
  ∀ sels s, T.sub sels = some s → ∀ k p d, s.property k = some p →
    p.member "default" = some d → ∃ d', validateTree env p d = some d'

/-- What was accepted is accepted again and stays as it is if and only if no default was put
in for which there is still something to be done. -/
theorem normalises_iff (hordered : T.Ordered) (hdefaults : DefaultsAccepted env T)
    (h : validateTree env T i = some j) :
    validateTree env T j = some j ↔ Everywhere FinishedDefaults T i := by
  have hprepared : Prepared env.throwing T := by
    intro sels s hs
    refine ⟨(hordered.sub hs).nodupNames, fun k p d hp hd => ?_⟩
    obtain ⟨d', hd'⟩ := hdefaults sels s hs k p d hp hd
    rw [validateTree_eq_conform] at hd'
    exact ⟨d', hd'⟩
  rw [validateTree_eq_conform] at h ⊢
  exact conform_conform_iff i hprepared h

end Normalises

section Samples

/-- A value that is 1 where it is missing. -/
def one : Json ℤ :=
  .object [("default", .int 1)]

/-- An object with a key `b`, which is `d` where it is missing. -/
def withOne (d : Json ℤ) : Json ℤ :=
  .object [("default", d), ("properties", .object [("b", one)]), ("type", .string "object")]

/-- An object with a key `a`, which is `d` where it is missing. -/
def nested (d : Json ℤ) : Json ℤ :=
  .object [("properties", .object [("a", withOne d)]), ("type", .string "object")]

/-- One of the schemas that are used here. -/
def IsNested (d s : Json ℤ) : Prop :=
  s = nested d ∨ s = withOne d ∨ s = one ∨ s = anySchema

theorem IsNested.child {d s c : Json ℤ} {sel : Sel} (hs : IsNested d s)
    (hc : s.child sel = some c) : IsNested d c := by
  rcases hs with rfl | rfl | rfl | rfl <;> cases sel <;>
    simp_all [Json.child, nested, withOne, one, anySchema, property, tuple, member,
      Option.filter, IsNested, Assoc.lookup_cons_eq]

theorem isNested_sub {d c : Json ℤ} {sels : List Sel} (hc : (nested d).sub sels = some c) :
    IsNested d c :=
  forall_sub (P := IsNested d) (.inl rfl) (fun _ _ _ => IsNested.child) sels hc

theorem wellTyped_nested (d : Json ℤ) : WellTyped (nested d) := by
  intro sels c hc
  rcases isNested_sub hc with rfl | rfl | rfl | rfl
  · constructor <;> simp [nested, member, Assoc.lookup_cons_eq, type, IsTypeList]
  · constructor <;> simp [withOne, member, Assoc.lookup_cons_eq, type, IsTypeList]
  · constructor <;> simp [one, member, Assoc.lookup_cons_eq, type]
  · constructor <;> simp [anySchema, member, Assoc.lookup_cons_eq, type, IsTypeList]

theorem ordered_nested {d : Json ℤ} (hd : d.Ordered) : (nested d).Ordered := by
  have hdefault : "default" < "properties" := by decide
  have htype : "properties" < "type" := by decide
  have hboth : "default" < "type" := by decide
  simp only [nested, withOne, one, Ordered, OrderedMembers, Assoc.Sorted, hd, List.map_cons,
    List.map_nil, List.pairwise_cons, List.mem_cons, List.not_mem_nil, or_false, forall_eq,
    forall_eq_or_imp, List.Pairwise.nil, hdefault, htype, hboth, false_implies, implies_true,
    and_self]

theorem defaultsAccepted_nested {d d' : Json ℤ}
    (hd : validateTree wholeNumbers (withOne d) d = some d') :
    DefaultsAccepted wholeNumbers (nested d) := by
  intro sels s hs k p e hp he
  rcases isNested_sub hs with rfl | rfl | rfl | rfl
  · have hproperty : k = "a" ∧ withOne d = p := by
      simpa [nested, property, member, Assoc.lookup_cons_eq] using hp
    obtain ⟨rfl, rfl⟩ := hproperty
    cases he
    exact ⟨d', hd⟩
  · have hproperty : k = "b" ∧ one = p := by
      simpa [withOne, property, member, Assoc.lookup_cons_eq] using hp
    obtain ⟨rfl, rfl⟩ := hproperty
    cases he
    exact ⟨.int 1, rfl⟩
  · cases hp
  · cases hp

/-- The object with its default. -/
def hasOne : Json ℤ :=
  .object [("b", .int 1)]

/-- The default has all its keys, and the second validation changes nothing. -/
theorem normalises_complete :
    validateTree wholeNumbers (nested hasOne) (.object []) = some (.object [("a", hasOne)]) ∧
    validateTree wholeNumbers (nested hasOne) (.object [("a", hasOne)]) =
      some (.object [("a", hasOne)]) := by
  have hvalid : validateTree wholeNumbers (nested hasOne) (.object []) =
      some (.object [("a", hasOne)]) := rfl
  have hordered : hasOne.Ordered := by
    simp [hasOne, Ordered, OrderedMembers, Assoc.Sorted]
  refine ⟨hvalid, ?_⟩
  refine (normalises_iff (ordered_nested hordered) (defaultsAccepted_nested rfl) hvalid).mpr ?_
  refine ⟨fun k p d hk hp hd => .inr ?_, trivial⟩
  have hproperty : k = "a" ∧ withOne hasOne = p := by
    simpa [nested, property, member, Assoc.lookup_cons_eq] using hp
  obtain ⟨rfl, rfl⟩ := hproperty
  cases hd
  have hself : conform wholeNumbers.throwing (whole wholeNumbers.throwing) (withOne hasOne)
      hasOne = some hasOne := rfl
  exact (conform_eq_self_iff hasOne hself).mp rfl

/-- The default of a key is an empty object, which has a default for a key in turn. The first
validation puts in the empty object, and the second fills it. -/
theorem not_normalises :
    WellTyped (nested (.object [])) ∧ (nested (.object [])).Ordered ∧
    DefaultsAccepted wholeNumbers (nested (.object [])) ∧
    ¬ ∀ j, validateTree wholeNumbers (nested (.object [])) (.object []) = some j →
      validateTree wholeNumbers (nested (.object [])) j = some j := by
  have hordered : (Json.object [] : Json ℤ).Ordered := by
    simp [Ordered, OrderedMembers, Assoc.Sorted]
  refine ⟨wellTyped_nested _, ordered_nested hordered, defaultsAccepted_nested rfl, ?_⟩
  intro hnormal
  have hfirst : validateTree wholeNumbers (nested (.object [])) (.object []) =
      some (.object [("a", .object [])]) := rfl
  have hsecond : validateTree wholeNumbers (nested (.object [])) (.object [("a", .object [])]) =
      some (.object [("a", hasOne)]) := rfl
  have heq := hnormal _ hfirst
  rw [hsecond] at heq
  cases heq

end Samples

end Json

end Gearbox
