import Mathlib.Data.Nat.Digits.Lemmas

/-!
# Numbers in base 32

Numbers of 64 bits are written with 32 digits: those of the decimal system and the letters without
`i`, `l`, `o` and `u`. The encoder appends the digits of a number to a text, the last digit first,
and then it turns the whole text around, so that a text which was not empty is turned around, too.
The decoder adds up the digits from the last one on. Its sum and its weight are 64 bits wide.

`number` is what a text denotes. The decoder returns it up to a multiple of `2 ^ 64`.
-/

namespace Gearbox

namespace Base32

/-- `basechars` -/
def basechars : List Char :=
  ['0', '1', '2', '3', '4', '5', '6', '7', '8', '9', 'a', 'b', 'c', 'd', 'e', 'f', 'g', 'h',
    'j', 'k', 'm', 'n', 'p', 'q', 'r', 's', 't', 'v', 'w', 'x', 'y', 'z']

/-- The digit at an index; after the last one there is the end of the string. -/
def basechar (i : ℕ) : Char :=
  basechars.getD i (Char.ofNat 0)

theorem toNat_shiftRight_five (n : UInt64) : (n >>> 5).toNat = n.toNat / 32 := by
  rw [UInt64.toNat_shiftRight]
  exact Nat.shiftRight_eq_div_pow _ _

theorem shiftRight_lt {n : UInt64} (h : n ≠ 0) : (n >>> 5).toNat < n.toNat := by
  have hpos : 0 < n.toNat := Nat.pos_of_ne_zero fun hzero => h (UInt64.toNat_inj.mp hzero)
  rw [toNat_shiftRight_five]
  omega

/-- The loop of `encode_b32c`. -/
def encodeLoop (n : UInt64) (s : List Char) : List Char :=
  if _h : n = 0 then s
  else
    let q := n >>> 5
    if q ≠ 0 then encodeLoop q (s ++ [basechar (n % 32).toNat])
    else s ++ [basechar n.toNat]
termination_by n.toNat
decreasing_by exact shiftRight_lt _h

/-- `encode_b32c`: the result of the function, and the text. -/
def encodeB32c (n : UInt64) (s : List Char) : ℤ × List Char :=
  (0, (encodeLoop n s).reverse)

/-- The value of a digit, if it is legal. -/
def digit (b : Char) : Option ℕ :=
  if b.toNat < '0'.toNat ∨ '9'.toNat < b.toNat ∧ b.toNat < 'a'.toNat ∨ 'z'.toNat < b.toNat ∨
      b = 'i' ∨ b = 'l' ∨ b = 'o' ∨ b = 'u' then none
  else if b.toNat ≤ '9'.toNat then some (b.toNat - '0'.toNat)
  else if b.toNat ≤ 'h'.toNat then some (b.toNat - 87)
  else if b.toNat ≤ 'k'.toNat then some (b.toNat - 88)
  else if b.toNat ≤ 'n'.toNat then some (b.toNat - 89)
  else if b.toNat ≤ 't'.toNat then some (b.toNat - 90)
  else some (b.toNat - 91)

/-- The loop of `decode_b32c` from the last digit on, with the sum `t` and the weight `o`. -/
def decodeLoop : List Char → UInt64 → UInt64 → ℤ × UInt64
  | [], t, _ => (0, t)
  | c :: rest, t, o =>
    match digit c with
    | none => (1, t)
    | some b => decodeLoop rest (t + UInt64.ofNat b * o) (o * 32)

/-- `decode_b32c`: the result of the function, and the number. -/
def decodeB32c (s : List Char) : ℤ × UInt64 :=
  decodeLoop s.reverse 0 1

/-- All characters are legal digits. -/
def Legal (s : List Char) : Prop :=
  ∀ c ∈ s, c ∈ basechars

instance (s : List Char) : Decidable (Legal s) :=
  inferInstanceAs (Decidable (∀ c ∈ s, c ∈ basechars))

/-- The number that a text denotes. -/
def number (s : List Char) : ℕ :=
  s.foldl (fun n c => 32 * n + basechars.idxOf c) 0

section Digits

/-- The branches of the decoder are the alphabet. -/
theorem digit_eq (c : Char) :
    digit c = if c ∈ basechars then some (basechars.idxOf c) else none := by
  by_cases hrange : c.toNat ≤ 122
  · have hall : ∀ n < 123, digit (Char.ofNat n) =
        if Char.ofNat n ∈ basechars then some (basechars.idxOf (Char.ofNat n)) else none := by
      decide
    have hc := hall c.toNat (by omega)
    rwa [Char.ofNat_toNat] at hc
  · have hlarge : 'z'.toNat < c.toNat := by
      change 122 < c.toNat
      omega
    have hillegal : c ∉ basechars := by
      intro hmem
      have hle : ∀ d ∈ basechars, d.toNat ≤ 122 := List.forall_iff_forall_mem.mp (by decide)
      exact hrange (hle c hmem)
    rw [digit, if_pos (.inr (.inr (.inl hlarge))), if_neg hillegal]

theorem idxOf_basechar {i : ℕ} (h : i < 32) : basechars.idxOf (basechar i) = i := by
  have hall : ∀ i < 32, basechars.idxOf (basechar i) = i := by decide
  exact hall i h

theorem basechar_idxOf {c : Char} (h : c ∈ basechars) : basechar (basechars.idxOf c) = c := by
  have hall : ∀ c ∈ basechars, basechar (basechars.idxOf c) = c :=
    List.forall_iff_forall_mem.mp (by decide)
  exact hall c h

theorem idxOf_lt {c : Char} (h : c ∈ basechars) : basechars.idxOf c < 32 :=
  List.idxOf_lt_length_iff.mpr h

theorem basechar_mem {i : ℕ} (h : i < 32) : basechar i ∈ basechars := by
  have hall : ∀ i < 32, basechar i ∈ basechars := by decide
  exact hall i h

/-- The number of a text from its digits, the last one first. -/
theorem number_eq (s : List Char) :
    number s = Nat.ofDigits 32 (s.reverse.map basechars.idxOf) := by
  rw [number, Nat.ofDigits_eq_foldr, List.foldr_map, List.foldr_reverse]
  congr 1
  funext n c
  simp [Nat.add_comm]

end Digits

section Encode

/-- The encoder appends the digits, the last one first. -/
theorem encodeLoop_eq (n : UInt64) (s : List Char) :
    encodeLoop n s = s ++ (Nat.digits 32 n.toNat).map basechar := by
  induction n, s using encodeLoop.induct with
  | case1 s =>
      rw [encodeLoop, dif_pos rfl]
      simp
  | case2 n s hn q hq ih =>
      have hne : n.toNat ≠ 0 := fun hzero => hn (UInt64.toNat_inj.mp hzero)
      have hmod : (n % 32).toNat = n.toNat % 32 := UInt64.toNat_mod n 32
      rw [encodeLoop, dif_neg hn, if_pos hq, ih, toNat_shiftRight_five, hmod,
        Nat.digits_eq_cons_digits_div (by decide : 1 < 32) hne, List.append_assoc]
      rfl
  | case3 n s hn q hq =>
      have hne : n.toNat ≠ 0 := fun hzero => hn (UInt64.toNat_inj.mp hzero)
      have hzero : n.toNat / 32 = 0 := by
        have hshift : n >>> 5 = 0 := not_not.mp hq
        rw [← toNat_shiftRight_five, hshift]
        rfl
      have hlt : n.toNat < 32 := by omega
      rw [encodeLoop, dif_neg hn, if_neg hq, Nat.digits_of_lt 32 n.toNat hne hlt]
      rfl

theorem encodeB32c_nil (n : UInt64) :
    (encodeB32c n []).2 = ((Nat.digits 32 n.toNat).map basechar).reverse := by
  rw [encodeB32c, encodeLoop_eq, List.nil_append]

end Encode

section Decode

theorem decodeLoop_of_legal {s : List Char} (h : Legal s) (t o : UInt64) :
    decodeLoop s t o =
      (0, t + o * UInt64.ofNat (Nat.ofDigits 32 (s.map basechars.idxOf))) := by
  induction s generalizing t o with
  | nil => simp [decodeLoop]
  | cons c rest ih =>
      have hc : c ∈ basechars := h c List.mem_cons_self
      have hrest : Legal rest := fun d hd => h d (List.mem_cons_of_mem c hd)
      rw [decodeLoop, digit_eq, if_pos hc]
      dsimp only
      have hbase : UInt64.ofNat 32 = 32 := rfl
      rw [ih hrest, List.map_cons, Nat.ofDigits_cons, UInt64.ofNat_add, UInt64.ofNat_mul, hbase,
        UInt64.mul_add, UInt64.mul_assoc, UInt64.add_assoc, UInt64.mul_comm (UInt64.ofNat _) o]

theorem decodeLoop_of_illegal {s : List Char} (h : ¬ Legal s) (t o : UInt64) :
    (decodeLoop s t o).1 = 1 := by
  induction s generalizing t o with
  | nil => exact absurd (fun _ hc => nomatch hc) h
  | cons c rest ih =>
      rw [decodeLoop, digit_eq]
      by_cases hc : c ∈ basechars
      · rw [if_pos hc]
        refine ih (fun hrest => h fun d hd => ?_) _ _
        rcases List.mem_cons.mp hd with rfl | hd
        · exact hc
        · exact hrest d hd
      · rw [if_neg hc]

theorem legal_reverse {s : List Char} : Legal s.reverse ↔ Legal s := by
  simp [Legal]

/-- The decoder returns the number modulo `2 ^ 64`. -/
theorem decodeB32c_of_legal {s : List Char} (h : Legal s) :
    decodeB32c s = (0, UInt64.ofNat (number s)) := by
  rw [decodeB32c, decodeLoop_of_legal (legal_reverse.mpr h), ← number_eq]
  simp

theorem decodeB32c_of_illegal {s : List Char} (h : ¬ Legal s) : (decodeB32c s).1 = 1 :=
  decodeLoop_of_illegal (fun hreverse => h (legal_reverse.mp hreverse)) 0 1

end Decode

section Inverse

theorem legal_encodeB32c (n : UInt64) : Legal (encodeB32c n []).2 := by
  intro c hc
  rw [encodeB32c_nil, List.mem_reverse] at hc
  obtain ⟨i, hi, rfl⟩ := List.mem_map.mp hc
  exact basechar_mem (Nat.digits_lt_base (by decide) hi)

/-- The text of a number denotes it. -/
theorem number_encodeB32c (n : UInt64) : number (encodeB32c n []).2 = n.toNat := by
  have hdigits : ((Nat.digits 32 n.toNat).map basechar).map basechars.idxOf =
      Nat.digits 32 n.toNat := by
    rw [List.map_map]
    conv_rhs => rw [← List.map_id (Nat.digits 32 n.toNat)]
    refine List.map_congr_left fun i hi => ?_
    exact idxOf_basechar (Nat.digits_lt_base (by decide) hi)
  rw [number_eq, encodeB32c_nil, List.reverse_reverse, hdigits, Nat.ofDigits_digits]

/-- The digits of the number of a text without a leading zero. -/
theorem digits_number {s : List Char} (h : Legal s) (hzero : s.head? ≠ some '0') :
    Nat.digits 32 (number s) = s.reverse.map basechars.idxOf := by
  rw [number_eq]
  refine Nat.digits_ofDigits 32 (by decide) _ ?_ ?_
  · intro i hi
    obtain ⟨c, hc, rfl⟩ := List.mem_map.mp hi
    exact idxOf_lt (h c (List.mem_reverse.mp hc))
  · intro hne hlast
    cases s with
    | nil => exact hne rfl
    | cons c rest =>
        have hindex : basechars.idxOf c = 0 := by simpa using hlast
        have hc : c = '0' := by
          rw [← basechar_idxOf (h c List.mem_cons_self), hindex]
          rfl
        exact hzero (congrArg some hc)

/-- A number is decoded from its text, and a text without a leading zero is the text of its
number. -/
theorem base32_inverse :
    (∀ n : UInt64, decodeB32c (encodeB32c n []).2 = (0, n)) ∧
      ∀ s : List Char, Legal s → s.head? ≠ some '0' → number s < 2 ^ 64 →
        (encodeB32c (decodeB32c s).2 []).2 = s := by
  constructor
  · intro n
    rw [decodeB32c_of_legal (legal_encodeB32c n), number_encodeB32c, UInt64.ofNat_toNat]
  · intro s hlegal hzero hsmall
    have hvalue : (UInt64.ofNat (number s)).toNat = number s :=
      UInt64.toNat_ofNat_of_lt hsmall
    rw [decodeB32c_of_legal hlegal, encodeB32c_nil, hvalue, digits_number hlegal hzero,
      List.map_map, ← List.map_reverse, List.reverse_reverse]
    conv_rhs => rw [← List.map_id s]
    exact List.map_congr_left fun c hc => basechar_idxOf (hlegal c hc)

theorem base32_inverse_sample :
    decodeB32c (encodeB32c 1234567890123456789 []).2 = (0, 1234567890123456789) ∧
      (encodeB32c (decodeB32c "128ggyhyyk08n".toList).2 []).2 = "128ggyhyyk08n".toList :=
  ⟨base32_inverse.1 1234567890123456789,
    base32_inverse.2 "128ggyhyyk08n".toList (List.forall_iff_forall_mem.mp (by decide))
      (by decide) (by decide)⟩

/-- The decoder succeeds for the texts of the numbers of 64 bits, with the number. -/
def Exact (s : List Char) : Prop :=
  ((decodeB32c s).1 = 0 ↔ Legal s ∧ number s < 2 ^ 64) ∧
    ((decodeB32c s).1 = 0 → (decodeB32c s).2.toNat = number s)

theorem exact_iff (s : List Char) : Exact s ↔ (Legal s → number s < 2 ^ 64) := by
  by_cases hlegal : Legal s
  · have hdecode := decodeB32c_of_legal hlegal
    rw [Exact, hdecode]
    constructor
    · rintro ⟨hsuccess, -⟩ -
      exact (hsuccess.mp rfl).2
    · intro hsmall
      exact ⟨⟨fun _ => ⟨hlegal, hsmall hlegal⟩, fun _ => rfl⟩,
        fun _ => UInt64.toNat_ofNat_of_lt (hsmall hlegal)⟩
  · have hdecode := decodeB32c_of_illegal hlegal
    rw [Exact, hdecode]
    constructor
    · exact fun _ h => absurd h hlegal
    · intro _
      exact ⟨⟨fun h => absurd h (by decide), fun h => absurd h.1 hlegal⟩,
        fun h => absurd h (by decide)⟩

/-- The text of `2 ^ 64`. -/
theorem not_exact : ¬ Exact "g000000000000".toList := by
  intro h
  have hsuccess : (decodeB32c "g000000000000".toList).1 = 0 := by decide
  exact absurd (h.1.mp hsuccess).2 (by decide)

end Inverse

end Base32

end Gearbox
