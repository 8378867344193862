import Mathlib.Algebra.Order.Group.Abs
import Gearbox.Json.Accept
import Gearbox.Json.Numbers
import Gearbox.Json.Filling

/-!
# The conversion of integers

Where the type of a schema has `"number"`, `typeFixup` makes a double of an integer. The
parser checks the value before the conversion, and `Json::validate` checks it after. The
conversion goes through an `int`, so that it keeps the values of 32 bits only.
-/

namespace Gearbox

namespace Json

open Refinement

variable {D : Type}

/-- The type of the schema is `"number"`, or a list of types that has it. -/
def AdmitsNumber (s : Json D) : Prop :=
  s.member "type" = some (.string "number") ∨ ∃ a, s.member "type" = some (.array a) ∧
    (∀ t ∈ a, t.type = .string) ∧ .string "number" ∈ a

section Fixup

variable {env : Env D} {s : Json D}

theorem fixNumbers_double {a : List (Json D)} (hstring : ∀ t ∈ a, t.type = .string) (x : D) :
    fixNumbers env a (.double x) = .ok (.double x) := by
  induction a with
  | nil => rfl
  | cons t rest ih =>
      rw [List.forall_mem_cons] at hstring
      cases t with
      | string v => exact ih hstring.2
      | _ => cases hstring.1

/-- The conversion that one of the types asks for. -/
theorem fixNumbers_number {a : List (Json D)} (hstring : ∀ t ∈ a, t.type = .string)
    (h : .string "number" ∈ a) (n : ℤ) :
    fixNumbers env a (.int n) = .ok (.double (env.ofInt (toInt32 n))) := by
  induction a with
  | nil => cases h
  | cons t rest ih =>
      rw [List.forall_mem_cons] at hstring
      cases t with
      | string v =>
          rw [fixNumbers, asString, ok_bind]
          by_cases hv : v = "number"
          · rw [hv]
            exact fixNumbers_double hstring.2 _
          · have hrest : .string "number" ∈ rest := by
              rcases List.mem_cons.mp h with heq | hrest
              · cases heq
                exact absurd rfl hv
              · exact hrest
            rw [fixNumber_eq env hv]
            exact ih hstring.2 hrest
      | _ => cases hstring.1

/-- An integer becomes a double if the loop over the types ends. -/
theorem typeFixup_int (h : AdmitsNumber s) (n : ℤ) (j : Json D) :
    typeFixup env s (.int n) = .ok j ↔
      ShortList s ∧ j = .double (env.ofInt (toInt32 n)) := by
  rcases h with ht | ⟨a, ht, hstring, hnumber⟩
  · have hshort : ShortList s := by
      intro a ha
      rw [ht] at ha
      cases ha
    rw [typeFixup, ht, and_iff_right hshort]
    dsimp only [asString]
    rw [ok_bind, fixNumber, if_pos rfl]
    simp only [pure, Except.pure, Except.ok.injEq]
    exact eq_comm
  · have hshort : ShortList s ↔ a.length < 2 ^ 32 := by
      constructor
      · exact fun hshort => hshort a ht
      · intro hlength b hb
        rw [ht] at hb
        cases hb
        exact hlength
    rw [typeFixup_array ht, hshort, and_comm]
    refine and_congr_right fun hlength => ?_
    rw [List.take_of_length_le (Nat.le_of_lt hlength), fixNumbers_number hstring hnumber]
    simp only [Except.ok.injEq]
    exact eq_comm

theorem anyMatches_of_mem {docType : String} {a : List (Json D)}
    (hstring : ∀ t ∈ a, t.type = .string) {v : String} (hv : .string v ∈ a)
    (hmatch : matchesType docType v) : anyMatches docType a = .ok true := by
  induction a with
  | nil => cases hv
  | cons t rest ih =>
      rw [List.forall_mem_cons] at hstring
      cases t with
      | string w =>
          rw [anyMatches, asString, ok_bind]
          by_cases hw : matchesType docType w = true
          · rw [if_pos hw]
            rfl
          · have hrest : .string v ∈ rest := by
              rcases List.mem_cons.mp hv with heq | hrest
              · cases heq
                exact absurd hmatch hw
              · exact hrest
            rw [if_neg hw]
            exact ih hstring.2 hrest
      | _ => cases hstring.1

/-- Integers and doubles are of the type. -/
theorem validType_number (h : AdmitsNumber s) (hshort : ShortList s) {kind : Kind}
    (hkind : kind = .int ∨ kind = .double) : validType onErrorThrow s kind = .ok true := by
  have hmatch : matchesType kind.typeToSchemaType "number" := by
    rcases hkind with rfl | rfl
    · decide
    · decide
  have hcontains : ∀ t, s.member "type" = some t →
      typeListContains kind.typeToSchemaType t = .ok true := by
    intro t ht
    rcases h with hnumber | ⟨a, ha, hstring, hmem⟩
    · rw [hnumber] at ht
      cases ht
      rw [typeListContains, asString, ok_bind, hmatch]
      · rfl
      · exact fun a ha => by cases ha
    · rw [ha] at ht
      cases ht
      rw [typeListContains, List.take_of_length_le (Nat.le_of_lt (hshort a ha)),
        anyMatches_of_mem hstring hmem hmatch]
      rfl
  obtain ⟨t, ht⟩ : ∃ t, s.member "type" = some t := by
    rcases h with ht | ⟨a, ht, -⟩
    · exact ⟨_, ht⟩
    · exact ⟨_, ht⟩
  rw [validType, ht]
  cases s.member "disallow" with
  | none =>
      dsimp only
      rw [hcontains t ht]
      rfl
  | some d =>
      dsimp only
      rw [hcontains t ht]
      rfl

end Fixup

section Verdict

/-- The checks of the type and of the value let the value pass. -/
def Passes (env : Env D) (s j : Json D) : Prop :=
  both (validType onErrorThrow s j.type) (validValue env onErrorThrow s j) = .ok true

/-- The integer is converted, and the verdict is the same before and after. -/
def SameVerdict (env : Env D) (s : Json D) (n : ℤ) : Prop :=
  ∃ j, typeFixup env s (.int n) = .ok j ∧ (Passes env s (.int n) ↔ Passes env s j)

/-- The number of a bound, if the keyword is one. -/
def boundOf (s : Json D) (k : String) : Option (Json D) :=
  (s.member k).filter fun m => m.type = .int || m.type = .double

/-- The integer is not below the minimum and not above the maximum. -/
def Within (env : Env D) (s : Json D) (n : ℤ) : Prop :=
  (∀ m ∈ boundOf s "minimum", numberLe env m (.int n)) ∧
    ∀ m ∈ boundOf s "maximum", numberLe env (.int n) m

/-- The entries of the enumeration that the loop looks at. -/
def enumEntries (e : Json D) : List (Json D) :=
  match e with
  | .array a => a.take e.length.toNat
  | _ => []

/-- An enumeration has the integer as an integer. -/
def ListedInt (s : Json D) (n : ℤ) : Prop :=
  ∀ e, s.member "enum" = some e → .int n ∈ enumEntries e

/-- An enumeration has the integer as a double. -/
def ListedDouble (env : Env D) (s : Json D) (n : ℤ) : Prop :=
  ∀ e, s.member "enum" = some e → ∃ x, .double x ∈ enumEntries e ∧ env.eq x (env.ofInt n)

/-- The bound of the decimal places is an integer that is not below the number of characters
of the integer, which are counted since there is no dot. -/
def DecimalsFit (s : Json D) (n : ℤ) : Prop :=
  ∀ m, s.member "maxDecimal" = some m →
    ∃ max, m = .int max ∧ decimals (toString n) ≤ toUInt64 max

/-- What is assumed of the doubles: the integers of 31 bits and a sign are exact, they are
compared with every integer as integers are, and printed as integers are. -/
structure ExactInts (env : Env D) : Prop where
  le_left : ∀ {m n : ℤ}, IsInt64 m → |n| ≤ 2 ^ 31 - 1 →
    (env.le (env.ofInt m) (env.ofInt n) ↔ m ≤ n)
  le_right : ∀ {m n : ℤ}, IsInt64 m → |n| ≤ 2 ^ 31 - 1 →
    (env.le (env.ofInt n) (env.ofInt m) ↔ n ≤ m)
  print : ∀ {n : ℤ}, |n| ≤ 2 ^ 31 - 1 → env.print (env.ofInt n) = toString n

variable {env : Env D} {s : Json D} {n : ℤ}

theorem validMinimum_iff {j : Json D} : validMinimum env onErrorThrow s j = .ok true ↔
    ∀ m ∈ boundOf s "minimum", numberLe env m j := by
  rw [validMinimum, boundOf]
  cases s.member "minimum" with
  | none => simp
  | some m =>
      cases m with
      | int m =>
          dsimp only [validMinimum.check]
          rw [ite_onErrorThrow]
          simp [type]
      | double x =>
          dsimp only [validMinimum.check]
          rw [ite_onErrorThrow]
          simp [type]
      | _ => simp [type]

theorem validMaximum_iff {j : Json D} : validMaximum env onErrorThrow s j = .ok true ↔
    ∀ m ∈ boundOf s "maximum", numberLe env j m := by
  rw [validMaximum, boundOf]
  cases s.member "maximum" with
  | none => simp
  | some m =>
      cases m with
      | int m =>
          dsimp only [validMaximum.check]
          rw [ite_onErrorThrow]
          simp [type]
      | double x =>
          dsimp only [validMaximum.check]
          rw [ite_onErrorThrow]
          simp [type]
      | _ => simp [type]

theorem validEnum_iff {j : Json D} : validEnum env onErrorThrow s j = .ok true ↔
    ∀ e, s.member "enum" = some e → ∃ v ∈ enumEntries e, enumMatches env v j := by
  rw [validEnum]
  cases s.member "enum" with
  | none => simp
  | some e =>
      dsimp only
      rw [ite_onErrorThrow, List.any_eq_true]
      simp only [Option.some.injEq, forall_eq']
      rfl

/-- Before the conversion the decimal places are not looked at. -/
theorem passes_int (hs : AdmitsNumber s) (hshort : ShortList s) :
    Passes env s (.int n) ↔ Within env s n ∧ ListedInt s n := by
  have hmatches : ∀ l : List (Json D),
      (∃ v ∈ l, enumMatches env v (.int n)) ↔ .int n ∈ l := by
    intro l
    constructor
    · rintro ⟨v, hv, hmatch⟩
      cases v with
      | int m =>
          simp only [enumMatches, decide_eq_true_iff] at hmatch
          rw [← hmatch]
          exact hv
      | _ => cases hmatch
    · exact fun hmem => ⟨_, hmem, decide_eq_true rfl⟩
  rw [Passes, both_eq_true, type, validType_number hs hshort (.inl rfl), validValue]
  simp only [both_eq_true, validMaxDecimal, validMinLength, validMaxLength, validFormat,
    validPattern, validMinimum_iff, validMaximum_iff, validEnum_iff, hmatches, true_and]
  rw [Within, ListedInt, and_assoc]

/-- After the conversion the enumeration has to have the double. -/
theorem passes_double (hexact : ExactInts env) (hs : AdmitsNumber s) (hshort : ShortList s)
    (hint64 : ∀ k ∈ ["minimum", "maximum"], ∀ m, s.member k = some (.int m) → IsInt64 m)
    (hn : |n| ≤ 2 ^ 31 - 1) : Passes env s (.double (env.ofInt n)) ↔
      Within env s n ∧ DecimalsFit s n ∧ ListedDouble env s n := by
  have hbound : ∀ k ∈ ["minimum", "maximum"], ∀ m ∈ boundOf s k,
      numberLe env m (.double (env.ofInt n)) = numberLe env m (.int n) ∧
        numberLe env (.double (env.ofInt n)) m = numberLe env (.int n) m := by
    intro k hk m hm
    obtain ⟨hmember, hkind⟩ := Option.filter_eq_some_iff.mp hm
    cases m with
    | int m =>
        have hm64 := hint64 k hk m hmember
        refine ⟨Bool.eq_iff_iff.mpr ?_, Bool.eq_iff_iff.mpr ?_⟩
        · exact (hexact.le_left hm64 hn).trans decide_eq_true_iff.symm
        · exact (hexact.le_right hm64 hn).trans decide_eq_true_iff.symm
    | double x => exact ⟨rfl, rfl⟩
    | _ => cases hkind
  have hwithin : (∀ m ∈ boundOf s "minimum", numberLe env m (.double (env.ofInt n))) ∧
      (∀ m ∈ boundOf s "maximum", numberLe env (.double (env.ofInt n)) m) ↔ Within env s n := by
    rw [Within]
    refine and_congr ?_ ?_
    · refine forall₂_congr fun m hm => ?_
      rw [(hbound "minimum" (by simp) m hm).1]
    · refine forall₂_congr fun m hm => ?_
      rw [(hbound "maximum" (by simp) m hm).2]
  have hmatches : ∀ l : List (Json D), (∃ v ∈ l, enumMatches env v (.double (env.ofInt n))) ↔
      ∃ x, .double x ∈ l ∧ env.eq x (env.ofInt n) := by
    intro l
    constructor
    · rintro ⟨v, hv, hmatch⟩
      cases v with
      | double x => exact ⟨x, hv, hmatch⟩
      | _ => cases hmatch
    · exact fun ⟨x, hx, hmatch⟩ => ⟨_, hx, hmatch⟩
  have hdecimals : validMaxDecimal env onErrorThrow s (.double (env.ofInt n)) = .ok true ↔
      DecimalsFit s n := by
    rw [DecimalsFit]
    cases hmember : s.member "maxDecimal" with
    | none => simp [validMaxDecimal, hmember]
    | some m =>
        cases m with
        | int max =>
            simp only [validMaxDecimal, hmember, asInt64, ok_bind, hexact.print hn]
            rw [← ite_not]
            simp only [pure, Except.pure]
            rw [ite_onErrorThrow, Nat.not_lt]
            simp
        | _ => simp [validMaxDecimal, hmember, asInt64]
  rw [Passes, both_eq_true, type, validType_number hs hshort (.inr rfl), validValue]
  simp only [both_eq_true, hdecimals, validMinLength, validMaxLength, validFormat,
    validPattern, validMinimum_iff, validMaximum_iff, validEnum_iff, hmatches, true_and]
  rw [← hwithin, ListedDouble, and_assoc]

/-- The verdict is the same if and only if the loops over the types end and, for an integer
that is within the bounds, the enumeration has it as an integer exactly if it has it as a
double and the decimal places fit. -/
theorem sameVerdict_iff (hexact : ExactInts env) (hs : AdmitsNumber s)
    (hint64 : ∀ k ∈ ["minimum", "maximum"], ∀ m, s.member k = some (.int m) → IsInt64 m)
    (hn : |n| ≤ 2 ^ 31 - 1) : SameVerdict env s n ↔ ShortList s ∧
      (Within env s n → (ListedInt s n ↔ DecimalsFit s n ∧ ListedDouble env s n)) := by
  have hsame : toInt32 n = n := by
    rw [abs_le] at hn
    exact Int.bmod_eq_of_le (by omega) (by omega)
  simp only [SameVerdict, typeFixup_int hs, hsame, and_assoc, exists_and_left, exists_eq_left]
  refine and_congr_right fun hshort => ?_
  rw [passes_int hs hshort, passes_double hexact hs hshort hint64 hn, and_congr_right_iff]

theorem exactInts_wholeNumbers : ExactInts wholeNumbers where
  le_left := fun _ _ => decide_eq_true_iff
  le_right := fun _ _ => decide_eq_true_iff
  print := fun _ => rfl

/-- A number from 0 to 10. -/
def smallNumber : Json ℤ :=
  .object [("maximum", .double 10), ("minimum", .int 0), ("type", .string "number")]

/-- The number 1, as an integer. -/
def onlyOne : Json ℤ :=
  .object [("enum", .array [.int 1]), ("type", .string "number")]

theorem sameVerdict_small : SameVerdict wholeNumbers smallNumber 5 := by
  refine (sameVerdict_iff exactInts_wholeNumbers (.inl rfl) ?_ (by decide)).mpr ⟨?_, ?_⟩
  · intro k hk m hm
    simp only [List.mem_cons, List.not_mem_nil, or_false] at hk
    rcases hk with rfl | rfl
    · cases hm
      decide
    · cases hm
  · intro a ha
    cases ha
  · intro _
    constructor
    · exact fun _ => ⟨fun m hm => (nomatch hm), fun e he => (nomatch he)⟩
    · exact fun _ e he => nomatch he

/-- The integer 1 passes before the conversion, and not after it. -/
theorem not_sameVerdict : ¬ SameVerdict wholeNumbers onlyOne 1 := by
  rintro ⟨j, hj, hsame⟩
  have hfixup : typeFixup wholeNumbers onlyOne (.int 1) = .ok (.double 1) := rfl
  rw [hfixup] at hj
  cases hj
  have hbefore : Passes wholeNumbers onlyOne (.int 1) := rfl
  have hafter := hsame.mp hbefore
  cases hafter

end Verdict

section Places

/-- The schema that governs a place of a tree. -/
def govern (s : Json D) : Path → Option (Json D)
  | [] => some s
  | .key k :: p => (s.childKey k).bind fun c => c.govern p
  | .index i :: p => (s.childIndex i).bind fun c => c.govern p

/-- The elements on the way to a place are among those that are looked at. -/
def Seen (order : Order D) (j : Json D) : Path → Prop
  | [] => True
  | .key k :: p => ∀ c, j.step (.key k) = some c → c.Seen order p
  | .index i :: p => (∀ a, j = .array a → i < order.count a.length) ∧
      ∀ c, j.step (.index i) = some c → c.Seen order p

variable {env : Env D} {order : Order D}

/-- The members of an object are conformed one by one. -/
theorem lookup_conformMembers {s : Json D} {o o' : List (String × Json D)}
    (h : conformMembers env order s o = some o') (k : String) :
    (∀ x, o.lookup k = some x → ∃ c y, s.childKey k = some c ∧ conform env order c x = some y ∧
      o'.lookup k = some y) ∧ (o.lookup k = none → o'.lookup k = none) := by
  induction o generalizing o' with
  | nil =>
      cases h
      exact ⟨fun x hx => (nomatch hx), fun _ => rfl⟩
  | cons m rest ih =>
      obtain ⟨k₀, j⟩ := m
      simp only [conformMembers, Option.bind_eq_bind, Option.bind_eq_some_iff] at h
      obtain ⟨c, hc, j', hj', rest', hrest', ho'⟩ := h
      cases ho'
      rw [Assoc.lookup_cons_eq, Assoc.lookup_cons_eq]
      by_cases hk : k = k₀
      · simp only [if_pos hk, Option.some.injEq, reduceCtorEq, false_implies, and_true]
        rintro x rfl
        exact ⟨c, j', hk ▸ hc, hj', rfl⟩
      · rw [if_neg hk, if_neg hk]
        exact ih hrest'

/-- The elements of an array are conformed one by one, as far as they are looked at. -/
theorem getElem_conformElements {s : Json D} {a b : List (Json D)} {size i : ℕ}
    (h : conformElements env order s size i a = some b) (k : ℕ) :
    (i + k < size → ∀ x, a[k]? = some x → ∃ c y, s.childIndex (i + k) = some c ∧
      conform env order c x = some y ∧ b[k]? = some y) ∧ (size ≤ i + k → b[k]? = a[k]?) := by
  induction a generalizing b i k with
  | nil =>
      cases h
      simp
  | cons j rest ih =>
      rw [conformElements] at h
      by_cases hi : i < size
      · simp only [if_pos hi, Option.bind_eq_bind, Option.bind_eq_some_iff] at h
        obtain ⟨c, hc, j', hj', rest', hrest', hb⟩ := h
        cases hb
        cases k with
        | zero =>
            refine ⟨fun _ x hx => ?_, fun hle => absurd hi (by omega)⟩
            cases hx
            exact ⟨c, j', hc, hj', rfl⟩
        | succ k =>
            have hrest := ih hrest' k
            rw [Nat.add_right_comm, Nat.add_assoc] at hrest
            exact hrest
      · rw [if_neg hi] at h
        cases h
        exact ⟨fun hlt => absurd hlt (by omega), fun _ => rfl⟩

/-- The parts of an object that was conformed. -/
theorem step_conform_key {s j j' x : Json D} {k : String} (h : conform env order s j = some j')
    (hx : j.step (.key k) = some x) : ∃ c y, s.childKey k = some c ∧
      conform env order c x = some y ∧ j'.step (.key k) = some y := by
  cases j with
  | object o =>
      simp only [conform, Option.bind_eq_bind, Option.bind_eq_some_iff] at h
      obtain ⟨_, -, o₁, ho₁, hcomplete⟩ := h
      obtain ⟨o', rfl, hkept, -⟩ := lookup_complete hcomplete
      obtain ⟨c, y, hc, hy, hlookup⟩ := (lookup_conformMembers ho₁ k).1 x hx
      exact ⟨c, y, hc, hy, hkept k y hlookup⟩
  | _ => cases hx

theorem step_conform_index {s j' : Json D} {a : List (Json D)} {i : ℕ}
    (h : conform env order s (.array a) = some j') :
    (i < order.count a.length → ∀ x, a[i]? = some x → ∃ c y, s.childIndex i = some c ∧
      conform env order c x = some y ∧ j'.step (.index i) = some y) ∧
      (order.count a.length ≤ i → j'.step (.index i) = a[i]?) := by
  simp only [conform, Option.bind_eq_bind, Option.bind_eq_some_iff] at h
  obtain ⟨_, -, _, -, _, -, b, hb, hj'⟩ := h
  cases hj'
  have helements := getElem_conformElements hb i
  rw [Nat.zero_add] at helements
  exact helements

/-- What is at a place that is looked at has been conformed by the schema that governs it. -/
theorem node_conform {s j j' c x : Json D} {p : Path} (h : conform env order s j = some j')
    (hc : s.govern p = some c) (hx : j.node p = some x) (hseen : j.Seen order p) :
    ∃ y, conform env order c x = some y ∧ j'.node p = some y := by
  induction p generalizing s j j' with
  | nil =>
      cases hc
      cases hx
      exact ⟨j', h, rfl⟩
  | cons step p ih =>
      obtain ⟨x₀, hx₀, hrest⟩ := Option.bind_eq_some_iff.mp hx
      cases step with
      | key k =>
          obtain ⟨c₀, hc₀, hc⟩ := Option.bind_eq_some_iff.mp hc
          obtain ⟨c₁, y₀, hc₁, hy₀, hstep⟩ := step_conform_key h hx₀
          rw [hc₀] at hc₁
          cases hc₁
          obtain ⟨y, hy, hnode⟩ := ih hy₀ hc hrest (hseen x₀ hx₀)
          exact ⟨y, hy, by rw [node, hstep, Option.bind_some, hnode]⟩
      | index i =>
          obtain ⟨c₀, hc₀, hc⟩ := Option.bind_eq_some_iff.mp hc
          cases j with
          | array a =>
              obtain ⟨c₁, y₀, hc₁, hy₀, hstep⟩ :=
                (step_conform_index h).1 (hseen.1 a rfl) x₀ hx₀
              rw [hc₀] at hc₁
              cases hc₁
              obtain ⟨y, hy, hnode⟩ := ih hy₀ hc hrest (hseen.2 x₀ hx₀)
              exact ⟨y, hy, by rw [node, hstep, Option.bind_some, hnode]⟩
          | _ => cases hx₀

/-- What is at a place that is not looked at stays. -/
theorem node_of_not_seen {s j j' : Json D} {p : Path} (h : conform env order s j = some j')
    (hseen : ¬ j.Seen order p) : j'.node p = j.node p := by
  induction p generalizing s j j' with
  | nil => exact absurd trivial hseen
  | cons step p ih =>
      cases step with
      | key k =>
          simp only [Seen, not_forall] at hseen
          obtain ⟨x, hx, hseen⟩ := hseen
          obtain ⟨c, y, -, hy, hstep⟩ := step_conform_key h hx
          rw [node, node, hstep, hx, Option.bind_some, Option.bind_some, ih hy hseen]
      | index i =>
          cases j with
          | array a =>
              rcases Nat.lt_or_ge i (order.count a.length) with hlt | hge
              · have hrest : ¬ ∀ c, (Json.array a).step (.index i) = some c → c.Seen order p := by
                  intro hrest
                  refine hseen ⟨fun b hb => ?_, hrest⟩
                  cases hb
                  exact hlt
                simp only [not_forall] at hrest
                obtain ⟨x, hx, hrest⟩ := hrest
                obtain ⟨c, y, -, hy, hstep⟩ := (step_conform_index h).1 hlt x hx
                rw [node, node, hstep, hx, Option.bind_some, Option.bind_some, ih hy hrest]
              · rw [node, node, (step_conform_index h).2 hge]
                rfl
          | _ =>
              refine absurd ⟨?_, ?_⟩ hseen
              · intro b hb
                cases hb
              · intro c hc
                cases hc

end Places

section Values

/-- The integer is one of 32 bits. -/
def Fits (n : ℤ) : Prop :=
  -2 ^ 31 ≤ n ∧ n < 2 ^ 31

/-- The place of an integer that is to become a number: it is in the tree, or it is the
default of a key that an object of the tree does not have. -/
inductive Numeric (T i : Json D) (n : ℤ) : Path → Prop where
  | document {p : Path} {c : Json D} (hn : i.node p = some (.int n))
      (hc : T.govern p = some c) (hnumber : AdmitsNumber c) : Numeric T i n p
  | default {p : Path} {o : List (String × Json D)} {c q : Json D} {k : String}
      (ho : i.node p = some (.object o)) (hmissing : o.lookup k = none)
      (hc : T.govern p = some c) (hq : c.property k = some q) (hnumber : AdmitsNumber q)
      (hn : q.member "default" = some (.int n)) : Numeric T i n (p ++ [.key k])

variable {env : Env D} {order : Order D} {T i j : Json D} {n : ℤ} {p : Path}

theorem toInt32_eq_iff : toInt32 n = n ↔ Fits n := by
  rw [toInt32, Fits]
  constructor
  · intro heq
    have hlower := Int.le_bmod (x := n) (m := 2 ^ 32) (by decide)
    have hupper := Int.bmod_lt (x := n) (m := 2 ^ 32) (by decide)
    omega
  · rintro ⟨hlower, hupper⟩
    exact Int.bmod_eq_of_le (by omega) (by omega)

/-- What an integer becomes that is accepted. -/
def Converts (env : Env D) (order : Order D) : Prop :=
  ∀ {c y : Json D} {n : ℤ}, AdmitsNumber c → order.scalar c (.int n) = some y →
    y = .double (env.ofInt (toInt32 n))

theorem converts_streaming : Converts env (streaming env) := by
  intro c y n hc hy
  obtain ⟨_, -, hy⟩ := Option.bind_eq_some_iff.mp hy
  exact ((typeFixup_int hc n y).mp (value?_eq_some.mp hy)).2

theorem converts_whole : Converts env (whole env) := by
  intro c y n hc hy
  obtain ⟨_, -, hy⟩ := Option.bind_eq_some_iff.mp hy
  obtain ⟨y', hy', hy⟩ := Option.bind_eq_some_iff.mp hy
  obtain ⟨_, -, hy⟩ := Option.bind_eq_some_iff.mp hy
  cases hy
  exact ((typeFixup_int hc n y).mp (value?_eq_some.mp hy')).2

theorem seen_append_key (i : Json D) (p : Path) (k : String) :
    i.Seen order (p ++ [.key k]) ↔ i.Seen order p := by
  induction p generalizing i with
  | nil => simp [Seen]
  | cons step p ih =>
      cases step with
      | key k' => simp only [List.cons_append, Seen, ih]
      | index l => simp only [List.cons_append, Seen, ih]

/-- The number that an accepted integer becomes, where it is looked at. -/
theorem node_numeric (horder : Converts env order) (h : conform env order T i = some j)
    (hplace : Numeric T i n p) (hseen : i.Seen order p) :
    j.node p = some (.double (env.ofInt (toInt32 n))) := by
  cases hplace with
  | document hn hc hnumber =>
      obtain ⟨y, hy, hnode⟩ := node_conform h hc hn hseen
      rw [hnode, horder hnumber hy]
  | @default p o c q k ho hmissing hc hq hnumber hn =>
      rw [seen_append_key] at hseen
      obtain ⟨y, hy, hnode⟩ := node_conform h hc ho hseen
      simp only [conform, Option.bind_eq_bind, Option.bind_eq_some_iff] at hy
      obtain ⟨_, -, o₁, ho₁, hcomplete⟩ := hy
      have hmissing₁ := (lookup_conformMembers ho₁ k).2 hmissing
      have hdefault : c.defaultFor k = some (.int n) := by
        rw [defaultFor, hq, Option.bind_some, hn]
      obtain ⟨v, hv⟩ := filled_of_complete hcomplete hmissing₁ hdefault
      obtain ⟨o', rfl, -, hfilled⟩ := lookup_complete hcomplete
      have hlookup : o'.lookup k = some v := by
        rw [hfilled k hmissing₁, hv]
      rw [filled, hq, Option.bind_some, hn, Option.bind_some] at hv
      rw [node_append, hnode, Option.bind_some, node, step, hlookup,
        ((typeFixup_int hnumber n v).mp (value?_eq_some.mp hv)).2]
      rfl

/-- An integer that is not looked at does not become a number. -/
theorem node_numeric_of_not_seen (h : conform env order T i = some j)
    (hplace : Numeric T i n p) (hseen : ¬ i.Seen order p) (x : D) :
    j.node p ≠ some (.double x) := by
  cases hplace with
  | document hn hc hnumber =>
      rw [node_of_not_seen h hseen, hn]
      exact fun heq => by cases heq
  | default ho hmissing hc hq hnumber hn =>
      rw [seen_append_key] at hseen
      rw [node_append, node_of_not_seen h hseen, ho, Option.bind_some, node, step, hmissing]
      exact fun heq => by cases heq

/-- What is assumed of the doubles: the integers up to `2 ^ 53` are different doubles. -/
def Distinct (env : Env D) : Prop :=
  ∀ m n : ℤ, |m| ≤ 2 ^ 53 → |n| ≤ 2 ^ 53 → env.ofInt m = env.ofInt n → m = n

theorem ofInt_toInt32_iff (hdistinct : Distinct env) (hn : |n| ≤ 2 ^ 53) :
    env.ofInt (toInt32 n) = env.ofInt n ↔ Fits n := by
  rw [← toInt32_eq_iff]
  constructor
  · have hbound : |toInt32 n| ≤ 2 ^ 53 := by
      have hlower := Int.le_bmod (x := n) (m := 2 ^ 32) (by decide)
      have hupper := Int.bmod_le (x := n) (m := 2 ^ 32) (by decide)
      rw [abs_le, toInt32]
      omega
    exact hdistinct _ _ hbound hn
  · exact congrArg env.ofInt

/-- The parser looks at every part of a document. -/
theorem seen_streaming {x : Json D} (h : i.node p = some x) : i.Seen (streaming env) p := by
  induction p generalizing i with
  | nil => trivial
  | cons step p ih =>
      obtain ⟨x₀, hx₀, hrest⟩ := Option.bind_eq_some_iff.mp h
      have hinner : ∀ c, i.step step = some c → c.Seen (streaming env) p := by
        intro c hc
        rw [hx₀] at hc
        cases hc
        exact ih hrest
      cases step with
      | key k => exact hinner
      | index l =>
          refine ⟨fun a ha => ?_, hinner⟩
          cases ha
          exact (List.getElem?_eq_some_iff.mp hx₀).1

theorem Numeric.seen_streaming (hplace : Numeric T i n p) : i.Seen (streaming env) p := by
  cases hplace with
  | document hn hc hnumber => exact Json.seen_streaming hn
  | default ho hmissing hc hq hnumber hn =>
      rw [seen_append_key]
      exact Json.seen_streaming ho

/-- Only the count of the elements matters for what is looked at. -/
theorem seen_congr {order' : Order D} (hcount : order.count = order'.count) (i : Json D)
    (p : Path) : i.Seen order p ↔ i.Seen order' p := by
  induction p generalizing i with
  | nil => rfl
  | cons step p ih =>
      cases step with
      | key k => simp only [Seen, ih]
      | index l => simp only [Seen, ih, hcount]

theorem node_eq_double_iff (hdistinct : Distinct env) (hn : |n| ≤ 2 ^ 53)
    (horder : Converts env order) (hplace : Numeric T i n p)
    (h : conform env order T i = some j) :
    j.node p = some (.double (env.ofInt n)) ↔ Fits n ∧ i.Seen order p := by
  by_cases hseen : i.Seen order p
  · rw [node_numeric horder h hplace hseen, ← ofInt_toInt32_iff hdistinct hn]
    simp [hseen]
  · exact ⟨fun heq => absurd heq (node_numeric_of_not_seen h hplace hseen _),
      fun hboth => absurd hboth.2 hseen⟩

/-- An integer that is accepted as a number becomes the double of its value if and only if it
has 32 bits, and for `Json::validate` if it is also looked at. -/
theorem conversion_iff (hdistinct : Distinct env) (hn : |n| ≤ 2 ^ 53)
    (hplace : Numeric T i n p) :
    (∀ d j, inputTree env d = some i → streamed env T d = some j →
      (j.node p = some (.double (env.ofInt n)) ↔ Fits n)) ∧
    ∀ j, validateTree env T i = some j →
      (j.node p = some (.double (env.ofInt n)) ↔ Fits n ∧ i.Seen (whole env) p) := by
  have hthrowing : Distinct env.throwing := hdistinct
  constructor
  · intro d j hi hj
    rw [streamed_eq_conform, ← inputTree_eq_read, hi, Option.bind_some] at hj
    have hiff := node_eq_double_iff hthrowing hn converts_streaming hplace hj
    exact hiff.trans (and_iff_left hplace.seen_streaming)
  · intro j hj
    rw [validateTree_eq_conform] at hj
    have hiff := node_eq_double_iff hthrowing hn converts_whole hplace hj
    have hcount : (whole env).count = (whole env.throwing).count := rfl
    have hseen := seen_congr hcount i p
    rw [hseen]
    exact hiff

/-- A number, or a number that is 5 where it is missing. -/
def numberOrFive : Json ℤ :=
  .object [("properties", .object [("a", .object [("default", .int 5),
    ("type", .string "number")])]), ("type", .string "object")]

theorem distinct_wholeNumbers : Distinct wholeNumbers :=
  fun _ _ _ _ heq => heq

/-- The default becomes the double of its value. -/
theorem conversion_five : validateTree wholeNumbers numberOrFive (.object []) =
    some (.object [("a", .double 5)]) ∧
    (Json.object [("a", .double 5)]).node [.key "a"] =
      some (.double (wholeNumbers.ofInt 5)) := by
  have hvalid : validateTree wholeNumbers numberOrFive (.object []) =
      some (.object [("a", .double 5)]) := rfl
  have hplace : Numeric numberOrFive (.object []) 5 ([] ++ [.key "a"]) :=
    .default rfl rfl rfl rfl (.inl rfl) rfl
  refine ⟨hvalid, ?_⟩
  refine ((conversion_iff distinct_wholeNumbers (by decide) hplace).2 _ hvalid).mpr ⟨?_, ?_⟩
  · exact ⟨by decide, by decide⟩
  · intro c hc
    trivial

/-- A number. -/
def anyNumber : Json ℤ :=
  .object [("type", .string "number")]

/-- The integer `2 ^ 31` is accepted as a number, and the number is not the one it was. -/
theorem not_conversion : Numeric anyNumber (.int 2147483648) 2147483648 [] ∧
    ¬ ∀ j, validateTree wholeNumbers anyNumber (.int 2147483648) = some j →
      j.node [] = some (.double (wholeNumbers.ofInt 2147483648)) := by
  refine ⟨.document rfl rfl (.inl rfl), fun hkept => ?_⟩
  have hvalid : validateTree wholeNumbers anyNumber (.int 2147483648) =
      some (.double (-2147483648)) := rfl
  cases hkept _ hvalid

end Values

end Json

end Gearbox
