import Gearbox.Ids.Base32

/-!
# Ids from UUIDs

The two halves of a UUID are encoded one after the other into the same text. The second call of
the encoder turns the digits of the first half around again, so that the text has the digits of the
second half, the first one first, and then those of the first half, the last one first. Neither
part has a fixed width, and the text does not say where one ends and the other begins.

`Overlaps` says that the digits at the border can be moved from one half to the other.
-/

namespace Gearbox

namespace Base32

/-- `uuid_b32c` for the two halves of a UUID. -/
def uuidB32c (u : UInt64 × UInt64) (b32u : List Char) : List Char :=
  (encodeB32c u.2 (encodeB32c u.1 b32u).2).2

/-- `JobManager::gen_id` for the UUID that is generated. -/
def genId (pre : List Char) (u : UInt64 × UInt64) : List Char :=
  pre ++ ['-'] ++ uuidB32c u []

/-- The last `k` digits of the second half of `u` are, in the other order, the last `k` digits of
the first half of `v`, and without them the halves are those of the other UUID. -/
def Overlaps (u v : UInt64 × UInt64) : Prop :=
  ∃ k, 0 < k ∧ 32 ^ (k - 1) ≤ u.2.toNat ∧ 32 ^ (k - 1) ≤ v.1.toNat ∧
    v.2.toNat = u.2.toNat / 32 ^ k ∧ u.1.toNat = v.1.toNat / 32 ^ k ∧
    ∀ i < k, u.2.toNat / 32 ^ i % 32 = v.1.toNat / 32 ^ (k - 1 - i) % 32

section Digits

/-- The digits of a UUID in the order of its text. -/
def digits (u : UInt64 × UInt64) : List ℕ :=
  (Nat.digits 32 u.2.toNat).reverse ++ Nat.digits 32 u.1.toNat

theorem uuidB32c_eq (u : UInt64 × UInt64) : uuidB32c u [] = (digits u).map basechar := by
  rw [uuidB32c, encodeB32c_nil, encodeB32c, encodeLoop_eq, List.reverse_append,
    List.reverse_reverse, digits, List.map_append, List.map_reverse]

theorem lt_of_mem_digits {u : UInt64 × UInt64} {i : ℕ} (h : i ∈ digits u) : i < 32 := by
  rw [digits, List.mem_append, List.mem_reverse] at h
  rcases h with h | h
  · exact Nat.digits_lt_base (by decide) h
  · exact Nat.digits_lt_base (by decide) h

theorem uuidB32c_inj {u v : UInt64 × UInt64} :
    uuidB32c u [] = uuidB32c v [] ↔ digits u = digits v := by
  have hback : ∀ u : UInt64 × UInt64, (uuidB32c u []).map basechars.idxOf = digits u := by
    intro u
    rw [uuidB32c_eq, List.map_map]
    conv_rhs => rw [← List.map_id (digits u)]
    exact List.map_congr_left fun i hi => idxOf_basechar (lt_of_mem_digits hi)
  constructor
  · intro h
    rw [← hback u, h, hback v]
  · intro h
    rw [uuidB32c_eq, uuidB32c_eq, h]

theorem drop_digits (n k : ℕ) : (Nat.digits 32 n).drop k = Nat.digits 32 (n / 32 ^ k) := by
  induction k generalizing n with
  | zero => simp
  | succ k ih =>
      by_cases hn : n = 0
      · simp [hn]
      · rw [Nat.digits_eq_cons_digits_div (by decide : 1 < 32) hn, List.drop_succ_cons, ih,
          Nat.div_div_eq_div_mul, pow_succ']

theorem length_digits (n k : ℕ) (hk : 0 < k) :
    k ≤ (Nat.digits 32 n).length ↔ 32 ^ (k - 1) ≤ n := by
  rw [← Nat.lt_digits_length_iff (by decide : 1 < 32)]
  omega

theorem getElem_digits {n i : ℕ} (h : i < (Nat.digits 32 n).length) :
    (Nat.digits 32 n)[i] = n / 32 ^ i % 32 := by
  rw [← Nat.getD_digits n i (by decide), List.getD_eq_getElem?_getD, List.getElem?_eq_getElem h,
    Option.getD_some]

/-- Digits `w` are moved from the end of one number to the end of another. -/
def Moved (a b c d : ℕ) (w : List ℕ) : Prop :=
  Nat.digits 32 a = w.reverse ++ Nat.digits 32 c ∧ Nat.digits 32 b = w ++ Nat.digits 32 d

theorem exists_moved {a b k : ℕ} (ha : k ≤ (Nat.digits 32 a).length)
    (hb : k ≤ (Nat.digits 32 b).length)
    (hdigits : ∀ i < k, a / 32 ^ i % 32 = b / 32 ^ (k - 1 - i) % 32) :
    Moved a b (a / 32 ^ k) (b / 32 ^ k) ((Nat.digits 32 b).take k) := by
  have htake : (Nat.digits 32 a).take k = ((Nat.digits 32 b).take k).reverse := by
    apply List.ext_getElem
    · simp [ha, hb]
    · intro i hi hi'
      have hlt : i < k := lt_of_lt_of_le hi (List.length_take_le _ _)
      have hlength : ((Nat.digits 32 b).take k).length = k := List.length_take_of_le hb
      rw [List.getElem_take, List.getElem_reverse, List.getElem_take, getElem_digits,
        getElem_digits, hdigits i hlt, hlength]
  constructor
  · rw [← htake, ← drop_digits, List.take_append_drop]
  · rw [← drop_digits, List.take_append_drop]

theorem Moved.eq_div {a b c d : ℕ} {w : List ℕ} (h : Moved a b c d w) :
    c = a / 32 ^ w.length ∧ d = b / 32 ^ w.length := by
  obtain ⟨ha, hb⟩ := h
  constructor
  · rw [← Nat.digits_inj_iff (b := 32), ← drop_digits, ha, ← w.length_reverse, List.drop_left]
  · rw [← Nat.digits_inj_iff (b := 32), ← drop_digits, hb, List.drop_left]

theorem Moved.digit_eq {a b c d : ℕ} {w : List ℕ} (h : Moved a b c d w) {i : ℕ}
    (hi : i < w.length) : a / 32 ^ i % 32 = b / 32 ^ (w.length - 1 - i) % 32 := by
  obtain ⟨ha, hb⟩ := h
  have hia : i < w.reverse.length := by rwa [w.length_reverse]
  have hib : w.length - 1 - i < w.length := by omega
  have hleft : i < (Nat.digits 32 a).length := by
    rw [ha, List.length_append]
    omega
  have hright : w.length - 1 - i < (Nat.digits 32 b).length := by
    rw [hb, List.length_append]
    omega
  rw [← getElem_digits hleft, ← getElem_digits hright]
  simp only [ha, hb, List.getElem_append_left hia, List.getElem_append_left hib,
    List.getElem_reverse]

theorem overlaps_iff {u v : UInt64 × UInt64} : Overlaps u v ↔
    ∃ w ≠ [], Moved u.2.toNat v.1.toNat v.2.toNat u.1.toNat w := by
  constructor
  · rintro ⟨k, hk, hu, hv, hv', hu', hdigits⟩
    have hlength := (length_digits _ k hk).mpr hv
    have hmoved := exists_moved ((length_digits _ k hk).mpr hu) hlength hdigits
    rw [← hv', ← hu'] at hmoved
    refine ⟨_, ?_, hmoved⟩
    rw [← List.length_pos_iff, List.length_take_of_le hlength]
    exact hk
  · rintro ⟨w, hw, hmoved⟩
    have hk : 0 < w.length := List.length_pos_iff.mpr hw
    refine ⟨w.length, hk, (length_digits _ _ hk).mp ?_, (length_digits _ _ hk).mp ?_,
      hmoved.eq_div.1, hmoved.eq_div.2, fun i hi => hmoved.digit_eq hi⟩
    · rw [hmoved.1, List.length_append, List.length_reverse]
      omega
    · rw [hmoved.2, List.length_append]
      omega

end Digits

section Distinct

variable {u v : UInt64 × UInt64}

theorem exists_moved_iff :
    (∃ w, Moved u.2.toNat v.1.toNat v.2.toNat u.1.toNat w) ↔ u = v ∨ Overlaps u v := by
  constructor
  · rintro ⟨w, hmoved⟩
    by_cases hw : w = []
    · subst hw
      left
      obtain ⟨hsecond, hfirst⟩ := hmoved
      have hsecond' : u.2.toNat = v.2.toNat := Nat.digits_inj_iff.mp hsecond
      have hfirst' : v.1.toNat = u.1.toNat := Nat.digits_inj_iff.mp hfirst
      exact Prod.ext (UInt64.toNat_inj.mp hfirst'.symm) (UInt64.toNat_inj.mp hsecond')
    · exact .inr (overlaps_iff.mpr ⟨w, hw, hmoved⟩)
  · rintro (rfl | hoverlaps)
    · exact ⟨[], rfl, rfl⟩
    · obtain ⟨w, -, hmoved⟩ := overlaps_iff.mp hoverlaps
      exact ⟨w, hmoved⟩

/-- Two UUIDs have the same digits if digits can be moved from one half to the other. -/
theorem digits_eq_iff : digits u = digits v ↔ u = v ∨ Overlaps u v ∨ Overlaps v u := by
  have hreverse : ∀ a c w : List ℕ, a.reverse = c.reverse ++ w ↔ a = w.reverse ++ c := by
    intro a c w
    rw [← List.reverse_inj, List.reverse_reverse, List.reverse_append, List.reverse_reverse]
  have hsame : u = v ∨ Overlaps u v ∨ Overlaps v u ↔
      (v = u ∨ Overlaps v u) ∨ u = v ∨ Overlaps u v := by
    rw [eq_comm (a := v)]
    tauto
  rw [hsame, ← exists_moved_iff, ← exists_moved_iff, digits, digits,
    List.append_eq_append_iff]
  simp only [hreverse, Moved]

theorem not_overlaps_self (u : UInt64 × UInt64) : ¬ Overlaps u u := by
  rintro ⟨k, hk, hlarge, -, hsecond, -⟩
  have hpos : 0 < u.2.toNat := lt_of_lt_of_le (Nat.pow_pos (by decide)) hlarge
  have hlt : u.2.toNat / 32 ^ k < u.2.toNat :=
    Nat.div_lt_self hpos (Nat.one_lt_pow (Nat.pos_iff_ne_zero.mp hk) (by decide))
  omega

/-- Two UUIDs that are distinct give distinct ids if and only if no digits can be moved between
their halves. -/
theorem uuid_distinct_iff (u v : UInt64 × UInt64) :
    (u ≠ v → uuidB32c u [] ≠ uuidB32c v [] ∧ ∀ pre, genId pre u ≠ genId pre v) ↔
      ¬ Overlaps u v ∧ ¬ Overlaps v u := by
  have hid : ∀ pre, genId pre u = genId pre v ↔ digits u = digits v := by
    intro pre
    rw [genId, genId, List.append_cancel_left_eq, uuidB32c_inj]
  simp only [ne_eq, uuidB32c_inj, hid, digits_eq_iff]
  constructor
  · intro h
    by_cases huv : u = v
    · subst huv
      exact ⟨not_overlaps_self u, not_overlaps_self u⟩
    · exact not_or.mp (not_or.mp (h huv).1).2
  · rintro ⟨hover, hover'⟩ huv
    have hne : ¬ (u = v ∨ Overlaps u v ∨ Overlaps v u) :=
      not_or.mpr ⟨huv, not_or.mpr ⟨hover, hover'⟩⟩
    exact ⟨hne, fun _ => hne⟩

/-- Two random UUIDs with the same text. -/
theorem not_uuid_distinct :
    ((18577348462903296, 4225) : UInt64 × UInt64) ≠ (594475150812905473, 132) ∧
      uuidB32c (18577348462903296, 4225) [] = uuidB32c (594475150812905473, 132) [] := by
  constructor
  · decide
  · rw [uuidB32c_inj, digits_eq_iff]
    exact .inr (.inl ⟨1, by decide, by decide, by decide, by decide, by decide, by decide⟩)

end Distinct

end Base32

end Gearbox
