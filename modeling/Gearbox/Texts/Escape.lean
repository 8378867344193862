import Mathlib.Tactic.Common

/-!
# Escaping bytes

A byte that is not kept is written as a percent sign and two hexadecimal digits. Reading replaces
every percent sign that is followed by two hexadecimal digits, of either case, and leaves the rest
alone. If the percent sign is not kept itself, then what was written is read back.
-/

namespace Texts

/-- `%` -/
def percent : UInt8 :=
  37

/-- A lower case hexadecimal digit. -/
def hexDigit (n : ℕ) : UInt8 :=
  UInt8.ofNat (if n < 10 then 48 + n else 87 + n)

/-- The value of a hexadecimal digit. -/
def hexValue (b : UInt8) : Option ℕ :=
  if 48 ≤ b.toNat ∧ b.toNat ≤ 57 then some (b.toNat - 48)
  else if 65 ≤ b.toNat ∧ b.toNat ≤ 70 then some (b.toNat - 55)
  else if 97 ≤ b.toNat ∧ b.toNat ≤ 102 then some (b.toNat - 87)
  else none

/-- A byte as it is written. -/
def escapeByte (keep : UInt8 → Bool) (b : UInt8) : List UInt8 :=
  if keep b then [b] else [percent, hexDigit (b.toNat / 16), hexDigit (b.toNat % 16)]

/-- A text as it is written. -/
def escape (keep : UInt8 → Bool) (text : List UInt8) : List UInt8 :=
  text.flatMap (escapeByte keep)

/-- The byte that three bytes stand for. -/
def escaped (c h l : UInt8) : Option UInt8 :=
  if c = percent then
    (hexValue h).bind fun high => (hexValue l).map fun low => UInt8.ofNat (16 * high + low)
  else none

/-- What is read. -/
def unescape : List UInt8 → List UInt8
  | [] => []
  | [c] => [c]
  | [c, d] => [c, d]
  | c :: h :: l :: text =>
    match escaped c h l with
    | some b => b :: unescape text
    | none => c :: unescape (h :: l :: text)

theorem hexValue_hexDigit {n : ℕ} (h : n < 16) : hexValue (hexDigit n) = some n := by
  have hall : ∀ m : Fin 16, hexValue (hexDigit m) = some m.val := by decide
  exact hall ⟨n, h⟩

/-- The two digits of a byte. -/
theorem escaped_digits (b : UInt8) :
    escaped percent (hexDigit (b.toNat / 16)) (hexDigit (b.toNat % 16)) = some b := by
  have hhigh : b.toNat / 16 < 16 := Nat.div_lt_of_lt_mul b.toNat_lt
  have hlow : b.toNat % 16 < 16 := Nat.mod_lt _ (by decide)
  rw [escaped, if_pos rfl, hexValue_hexDigit hhigh, hexValue_hexDigit hlow, Option.bind_some,
    Option.map_some, Nat.div_add_mod, UInt8.ofNat_toNat]

/-- A byte that starts nothing. -/
theorem unescape_cons_of_ne {c : UInt8} (hc : c ≠ percent) (text : List UInt8) :
    unescape (c :: text) = c :: unescape text := by
  cases text with
  | nil => rfl
  | cons h text =>
      cases text with
      | nil => rfl
      | cons l text =>
          have hnone : escaped c h l = none := if_neg hc
          rw [unescape, hnone]

theorem unescape_escapeByte {keep : UInt8 → Bool} (hkeep : keep percent = false) (b : UInt8)
    (rest : List UInt8) : unescape (escapeByte keep b ++ rest) = b :: unescape rest := by
  rw [escapeByte]
  split
  · rename_i hb
    refine unescape_cons_of_ne ?_ rest
    rintro rfl
    rw [hkeep] at hb
    cases hb
  · rw [List.cons_append, List.cons_append, List.cons_append, List.nil_append, unescape,
      escaped_digits]

/-- What was written is read back, whatever follows it. -/
theorem unescape_escape_append {keep : UInt8 → Bool} (hkeep : keep percent = false)
    (text rest : List UInt8) : unescape (escape keep text ++ rest) = text ++ unescape rest := by
  induction text with
  | nil => rfl
  | cons b text ih =>
      rw [escape, List.flatMap_cons, List.append_assoc, unescape_escapeByte hkeep, ← escape, ih]
      rfl

/-- The bytes that are written are kept ones, percent signs and digits. -/
theorem mem_escape {keep : UInt8 → Bool} {text : List UInt8} {c : UInt8}
    (h : c ∈ escape keep text) :
    keep c = true ∨ c = percent ∨ ∃ n, n < 16 ∧ c = hexDigit n := by
  obtain ⟨b, -, hc⟩ := List.mem_flatMap.mp h
  rw [escapeByte] at hc
  split at hc
  · rename_i hb
    rw [List.mem_singleton] at hc
    exact Or.inl (hc ▸ hb)
  · have hhigh : b.toNat / 16 < 16 := Nat.div_lt_of_lt_mul b.toNat_lt
    have hlow : b.toNat % 16 < 16 := Nat.mod_lt _ (by decide)
    rw [List.mem_cons, List.mem_cons, List.mem_singleton] at hc
    rcases hc with hc | hc | hc
    · exact Or.inr (Or.inl hc)
    · exact Or.inr (Or.inr ⟨_, hhigh, hc⟩)
    · exact Or.inr (Or.inr ⟨_, hlow, hc⟩)

end Texts
