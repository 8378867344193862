import Gearbox.Json.Agreement
import Gearbox.Json.Text

/-!
# Numbers as texts

The generator writes an integer with all its digits, and a `double` with `%.15g`. The
parser takes a lexeme with a dot for a `double`, and any other lexeme for an integer. The
format leaves the dot out when nothing follows it, so that some of the numbers that are
written as a `double` are taken for integers.

`Decimal` is a number that 15 digits represent exactly, and `format` is its lexeme.
-/

namespace Gearbox

namespace Json

open Refinement

variable {D : Type}

section Integers

/-- The values of `int64_t`. -/
def IsInt64 (n : ℤ) : Prop :=
  -2 ^ 63 ≤ n ∧ n < 2 ^ 63

instance (n : ℤ) : Decidable (IsInt64 n) :=
  inferInstanceAs (Decidable (_ ∧ _))

/-- A sign and the digits after it. -/
def unsigned : List Char → Bool × List Char
  | '-' :: digits => (true, digits)
  | '+' :: digits => (false, digits)
  | digits => (false, digits)

/-- The integer of some digits, if it is an `int64_t`. -/
def castDigits (negative : Bool) (digits : List Char) : Option ℤ :=
  if digits ≠ [] ∧ digits.all Char.isDigit then
    let n : ℤ := Nat.ofDigitChars 10 digits 0
    let n := if negative then -n else n
    if IsInt64 n then some n else none
  else
    none

/-- `boost::lexical_cast<int64_t>`: a sign, if there is one, and digits only. -/
def lexicalCast (text : String) : Option ℤ :=
  castDigits (unsigned text.toList).1 (unsigned text.toList).2

theorem unsigned_toDigits (n : ℕ) :
    unsigned (Nat.toDigits 10 n) = (false, Nat.toDigits 10 n) := by
  cases hdigits : Nat.toDigits 10 n with
  | nil => rfl
  | cons c rest =>
      have hmem : c ∈ Nat.toDigits 10 n := by
        rw [hdigits]
        exact List.mem_cons_self
      have hdigit : c.isDigit := Nat.isDigit_of_mem_toDigits (by decide) (by decide) hmem
      rw [unsigned]
      · rintro digits ⟨rfl, -⟩
        cases hdigit
      · rintro digits ⟨rfl, -⟩
        cases hdigit

theorem toList_toString (n : ℤ) : (toString n).toList =
    if 0 ≤ n then Nat.toDigits 10 n.toNat else '-' :: Nat.toDigits 10 (-n).toNat := by
  change (Int.repr n).toList = _
  rw [Int.repr_eq_if]
  split
  · exact Nat.toList_repr
  · simp [Nat.toList_repr]

/-- The digits of an integer have no dot. -/
theorem dot_notMem_toString (n : ℤ) : '.' ∉ (toString n).toList := by
  have hdigits : ∀ m : ℕ, '.' ∉ Nat.toDigits 10 m := by
    intro m hmem
    cases Nat.isDigit_of_mem_toDigits (by decide) (by decide) hmem
  rw [toList_toString]
  split
  · exact hdigits n.toNat
  · rw [List.mem_cons, not_or]
    exact ⟨by decide, hdigits (-n).toNat⟩

/-- An integer is read from its digits. -/
theorem lexicalCast_toString {n : ℤ} (h : IsInt64 n) : lexicalCast (toString n) = some n := by
  have hall : ∀ m : ℕ, Nat.toDigits 10 m ≠ [] ∧ (Nat.toDigits 10 m).all Char.isDigit := by
    intro m
    refine ⟨Nat.toDigits_ne_nil, List.all_eq_true.mpr fun c hc => ?_⟩
    exact Nat.isDigit_of_mem_toDigits (by decide) (by decide) hc
  have hvalue : ∀ m : ℕ, Nat.ofDigitChars 10 (Nat.toDigits 10 m) 0 = m := by
    intro m
    exact Nat.ofDigitChars_toDigits (by decide) (by decide)
  rw [lexicalCast, toList_toString]
  by_cases hnonneg : 0 ≤ n
  · rw [if_pos hnonneg, unsigned_toDigits, castDigits, if_pos (hall n.toNat)]
    simp only [hvalue, Bool.false_eq_true, if_false, Int.toNat_of_nonneg hnonneg, if_pos h]
  · have hminus : -(((-n).toNat : ℕ) : ℤ) = n := by omega
    rw [if_neg hnonneg, unsigned, castDigits, if_pos (hall (-n).toNat)]
    simp only [hvalue, if_true, hminus, if_pos h]

theorem mem_unsigned {text : List Char} {c : Char} (h : c ∈ text) (hminus : c ≠ '-')
    (hplus : c ≠ '+') : c ∈ (unsigned text).2 := by
  rw [unsigned.eq_def]
  split
  · exact (List.mem_cons.mp h).resolve_left hminus
  · exact (List.mem_cons.mp h).resolve_left hplus
  · exact h

/-- A text with any other character is refused. -/
theorem lexicalCast_of_mem {text : String} {c : Char} (hc : c ∈ text.toList)
    (hminus : c ≠ '-') (hplus : c ≠ '+') (hdigit : c.isDigit = false) :
    lexicalCast text = none := by
  rw [lexicalCast, castDigits, if_neg]
  rintro ⟨-, hall⟩
  have hdigit' := List.all_eq_true.mp hall c (mem_unsigned hc hminus hplus)
  rw [hdigit] at hdigit'
  cases hdigit'

end Integers

section Lexemes

/-- A number with at most 15 significant digits: `first` stands before the decimal point,
`rest` after it, and the number is multiplied by a power of ten. -/
structure Decimal where
  negative : Bool
  first : Char
  rest : List Char
  exponent : ℤ
  digits : ∀ c ∈ first :: rest, c.isDigit
  significant : rest.length < 15
  /-- there are no trailing zeros -/
  trailing : rest.getLast? ≠ some '0'
  /-- the only number that starts with a zero is zero -/
  leading : first = '0' → rest = [] ∧ exponent = 0

/-- A decimal point and the digits after it, if there are any. -/
def fraction : List Char → List Char
  | [] => []
  | digits => '.' :: digits

/-- The decimal places of a number between 1 and `10 ^ 15`, the places before the point
filled with zeros. -/
def Decimal.fixed (d : Decimal) (places : ℕ) : List Char :=
  d.first :: (d.rest.take places ++ List.replicate (places - d.rest.length) '0' ++
    fraction (d.rest.drop places))

/-- An exponent with a sign and at least two digits. -/
def formatExponent (e : ℤ) : List Char :=
  'e' :: (if e < 0 then '-' else '+') ::
    (if e.natAbs < 10 then '0' :: Nat.toDigits 10 e.natAbs else Nat.toDigits 10 e.natAbs)

/-- The lexeme of a number that is written with `%.15g`. -/
def Decimal.format (d : Decimal) : String :=
  String.ofList ((if d.negative then ['-'] else []) ++
    if d.exponent < -4 ∨ 15 ≤ d.exponent then
      d.first :: (fraction d.rest ++ formatExponent d.exponent)
    else if d.exponent < 0 then
      '0' :: '.' :: (List.replicate (d.exponent.natAbs - 1) '0' ++ d.first :: d.rest)
    else
      d.fixed d.exponent.toNat)

/-- The number has decimal places in its lexeme. -/
def Decimal.Fractional (d : Decimal) : Prop :=
  if d.exponent < -4 ∨ 15 ≤ d.exponent then d.rest ≠ []
  else d.exponent < d.rest.length

theorem dot_mem_fraction {digits : List Char} (h : '.' ∉ digits) :
    '.' ∈ fraction digits ↔ digits ≠ [] := by
  cases digits with
  | nil => simp [fraction]
  | cons c rest => simp [fraction]

theorem dot_notMem_formatExponent (e : ℤ) : '.' ∉ formatExponent e := by
  have hdigits : '.' ∉ Nat.toDigits 10 e.natAbs := by
    intro hmem
    cases Nat.isDigit_of_mem_toDigits (by decide) (by decide) hmem
  intro hmem
  rw [formatExponent, List.mem_cons, List.mem_cons] at hmem
  rcases hmem with hmem | hmem | hmem
  · cases hmem
  · split at hmem
    · cases hmem
    · cases hmem
  · split at hmem
    · rcases List.mem_cons.mp hmem with hmem | hmem
      · cases hmem
      · exact hdigits hmem
    · exact hdigits hmem

/-- The lexeme has a dot if and only if there are decimal places. -/
theorem dot_mem_format (d : Decimal) : '.' ∈ d.format.toList ↔ d.Fractional := by
  have hdigits : ∀ c ∈ d.first :: d.rest, c ≠ '.' := by
    rintro c hc rfl
    cases d.digits _ hc
  have hfirst : '.' ≠ d.first := (hdigits d.first List.mem_cons_self).symm
  have hrest : '.' ∉ d.rest := fun hmem => hdigits '.' (List.mem_cons_of_mem _ hmem) rfl
  have hsign : '.' ∉ (if d.negative then ['-'] else []) := by
    split
    · decide
    · decide
  rw [Decimal.format, Decimal.Fractional, String.toList_ofList, List.mem_append]
  simp only [hsign, false_or]
  by_cases hscientific : d.exponent < -4 ∨ 15 ≤ d.exponent
  · rw [if_pos hscientific, if_pos hscientific]
    simp only [List.mem_cons, List.mem_append, hfirst, false_or, dot_mem_fraction hrest,
      dot_notMem_formatExponent, or_false]
  · rw [if_neg hscientific, if_neg hscientific]
    by_cases hsmall : d.exponent < 0
    · rw [if_pos hsmall]
      have hlt : d.exponent < d.rest.length := by omega
      simp [hlt]
    · rw [if_neg hsmall, Decimal.fixed]
      have hdrop : '.' ∉ d.rest.drop d.exponent.toNat :=
        fun hmem => hrest (List.mem_of_mem_drop hmem)
      have htake : '.' ∉ d.rest.take d.exponent.toNat :=
        fun hmem => hrest (List.mem_of_mem_take hmem)
      have hzeros : '.' ∉ List.replicate (d.exponent.toNat - d.rest.length) '0' := by
        intro hmem
        cases (List.mem_replicate.mp hmem).2
      simp only [List.mem_cons, List.mem_append, hfirst, htake, hzeros, false_or,
        dot_mem_fraction hdrop, ne_eq, List.drop_eq_nil_iff]
      omega

/-- An integer with an exponent, as `JSON` allows it. -/
structure Power where
  negative : Bool
  digits : List Char
  upper : Bool
  sign : Option Bool
  exponent : List Char
  isDigit : ∀ c ∈ digits ++ exponent, c.isDigit
  nonempty : digits ≠ [] ∧ exponent ≠ []

/-- The lexeme of an integer with an exponent. -/
def Power.format (w : Power) : String :=
  String.ofList ((if w.negative then ['-'] else []) ++ w.digits ++
    (if w.upper then 'E' else 'e') :: ((match w.sign with
      | none => []
      | some true => ['-']
      | some false => ['+']) ++ w.exponent))

theorem dot_notMem_power (w : Power) : '.' ∉ w.format.toList := by
  have hdigits : '.' ∉ w.digits := by
    intro hmem
    cases w.isDigit _ (List.mem_append_left _ hmem)
  have hexponent : '.' ∉ w.exponent := by
    intro hmem
    cases w.isDigit _ (List.mem_append_right _ hmem)
  have hnegative : '.' ∉ (if w.negative then ['-'] else []) := by
    split
    · decide
    · decide
  have hletter : '.' ≠ (if w.upper then 'E' else 'e') := by
    split
    · decide
    · decide
  have hsign : '.' ∉ (match w.sign with
      | none => []
      | some true => ['-']
      | some false => ['+']) := by
    split
    · decide
    · decide
    · decide
  simp only [Power.format, String.toList_ofList, List.mem_append, List.mem_cons, hnegative,
    hdigits, hletter, hsign, hexponent, or_self, not_false_eq_true]

/-- An integer with an exponent is no `int64_t` for `lexical_cast`. -/
theorem lexicalCast_power (w : Power) : lexicalCast w.format = none := by
  cases hupper : w.upper with
  | true =>
      have hmem : 'E' ∈ w.format.toList := by simp [Power.format, hupper]
      exact lexicalCast_of_mem hmem (by decide) (by decide) (by decide)
  | false =>
      have hmem : 'e' ∈ w.format.toList := by simp [Power.format, hupper]
      exact lexicalCast_of_mem hmem (by decide) (by decide) (by decide)

end Lexemes

section Written

variable {env : Env D}

/-- A number whose lexeme the parser should understand: an integer of the generator, a
`double` of the generator that its lexeme represents exactly, or an integer with an
exponent. -/
inductive Written (env : Env D) where
  | int (n : ℤ) (h : IsInt64 n)
  | double (x : D) (d : Decimal) (hprint : env.print x = d.format)
      (hexact : env.lexDouble (env.print x) = some x)
  | power (w : Power)

/-- The number comes back with its type and value; the lexeme with an exponent is
accepted. -/
def Written.ReadBack : Written env → Prop
  | .int n _ => resent env (.int n) = .ok (.int n)
  | .double x _ _ _ => resent env (.double x) = .ok (.double x)
  | .power w => ∃ j, parsed env (.document (.number w.format)) = .ok j

/-- The lexeme is one that the parser takes for what it is. -/
def Written.Recognised : Written env → Prop
  | .int _ _ => True
  | .double _ d _ _ => d.Fractional
  | .power _ => False

/-- The parse of the text of a number. -/
theorem parsed_number (lexeme : String) (j : Json D) :
    parsed env (.document (.number lexeme)) = .ok j ↔ lexNumber env lexeme = .ok j := by
  have hread : complete? env (.document (.number lexeme)) = value? (lexNumber env lexeme) := by
    change (value? (lexNumber env lexeme)).bind some = _
    cases value? (lexNumber env lexeme) with
    | none => rfl
    | some j => rfl
  rw [← value?_eq_some, value?_parsed, hread, value?_eq_some]

/-- A number that was written is read back if and only if it is an integer, or a `double`
with decimal places in its lexeme. -/
theorem number_readBack_iff (hcast : env.lexInt = lexicalCast) (w : Written env) :
    w.ReadBack ↔ w.Recognised := by
  cases w with
  | int n h =>
      have hlex : lexNumber env (toString n) = .ok (.int n) := by
        rw [lexNumber, if_neg (dot_notMem_toString n), hcast, lexicalCast_toString h]
      exact iff_of_true ((parsed_number _ _).mpr hlex) trivial
  | double x d hprint hexact =>
      have hresent : resent env (.double x) = .ok (.double x) ↔
          lexNumber env (env.print x) = .ok (.double x) := parsed_number _ _
      rw [Written.ReadBack, Written.Recognised, hresent, ← dot_mem_format, ← hprint, lexNumber,
        hexact]
      split
      · rename_i hdot
        exact iff_of_true rfl hdot
      · rename_i hdot
        refine iff_of_false ?_ hdot
        intro h
        cases hlex : env.lexInt (env.print x) with
        | none =>
            rw [hlex] at h
            cases h
        | some n =>
            rw [hlex] at h
            cases h
  | power w =>
      refine iff_of_false ?_ id
      rintro ⟨j, hj⟩
      rw [parsed_number, lexNumber, if_neg (dot_notMem_power w), hcast,
        lexicalCast_power] at hj
      cases hj

/-- Numbers in tenths, with the lexemes of `1` and `1.5`. -/
def tenths : Env ℤ :=
  { wholeNumbers with
    print := fun x => if x = 15 then "1.5" else "1"
    lexInt := lexicalCast
    lexDouble := fun text =>
      if text = "1.5" then some 15 else if text = "1" then some 10 else none }

/-- The numbers `1` and `1.5`. -/
def decimalOne (rest : List Char) (h : rest = [] ∨ rest = ['5']) : Decimal where
  negative := false
  first := '1'
  rest := rest
  exponent := 0
  digits := by
    rcases h with rfl | rfl
    · exact List.forall_iff_forall_mem.mp (by decide)
    · exact List.forall_iff_forall_mem.mp (by decide)
  significant := by
    rcases h with rfl | rfl
    · decide
    · decide
  trailing := by
    rcases h with rfl | rfl
    · decide
    · decide
  leading := by
    intro hzero
    cases hzero

theorem number_readBack_half :
    (Written.double 15 (decimalOne ['5'] (.inr rfl)) (by decide) (by decide) :
      Written tenths).ReadBack := by
  apply (number_readBack_iff rfl _).mpr
  change Decimal.Fractional _
  rw [Decimal.Fractional]
  decide

/-- The number `1` is written as `1` and read as an integer. -/
theorem number_not_readBack :
    ¬ (Written.double 10 (decimalOne [] (.inl rfl)) (by decide) (by decide) :
      Written tenths).ReadBack := by
  intro h
  have hparsed : parsed tenths (.document (.number "1")) = .ok (.double 10) := h
  have hcast : tenths.lexInt "1" = some 1 := by decide
  have hlex : lexNumber tenths "1" = .ok (.int 1) := by
    rw [lexNumber, if_neg (by decide), hcast]
  rw [parsed_number, hlex] at hparsed
  cases hparsed

end Written

end Json

end Gearbox
