import Mathlib.Data.List.TakeWhile
import Mathlib.Tactic.Common

/-!
# Cutting texts

A text is cut at the first or at the last occurrence of a character, at the first
occurrence of another text, or into the parts between a separator. The lemmas say what is
cut from a text that was put together with the separator.
-/

namespace Texts

/-- The text before and after the first occurrence of a character. -/
def cut (c : Char) (text : List Char) : Option (List Char × List Char) :=
  if c ∈ text then some (text.takeWhile (· ≠ c), (text.dropWhile (· ≠ c)).tail) else none

/-- The text before and after the first occurrence of another text. -/
def cutAt (sep : List Char) : List Char → Option (List Char × List Char)
  | [] => if sep = [] then some ([], []) else none
  | c :: rest =>
    if sep.isPrefixOf (c :: rest) then some ([], (c :: rest).drop sep.length)
    else (cutAt sep rest).map fun r => (c :: r.1, r.2)

/-- The text after the last occurrence of a character. -/
def afterLast (c : Char) (text : List Char) : List Char :=
  (text.reverse.takeWhile (· ≠ c)).reverse

/-- The text before the last occurrence of a character. -/
def beforeLast (c : Char) (text : List Char) : List Char :=
  (text.reverse.dropWhile (· ≠ c)).tail.reverse

section Cut

variable {c : Char} {text : List Char}

theorem all_ne_of_notMem (h : c ∉ text) : ∀ a ∈ text, decide (a ≠ c) = true := by
  intro a ha
  rw [decide_eq_true_eq]
  rintro rfl
  exact h ha

theorem cut_append (h : c ∉ text) (rest : List Char) :
    cut c (text ++ c :: rest) = some (text, rest) := by
  rw [cut, if_pos (by simp), List.takeWhile_append_of_pos (all_ne_of_notMem h),
    List.dropWhile_append_of_pos (all_ne_of_notMem h)]
  simp

theorem cut_of_notMem (h : c ∉ text) : cut c text = none :=
  if_neg h

theorem notMem_takeWhile (c : Char) (text : List Char) : c ∉ text.takeWhile (· ≠ c) := by
  intro hmem
  have hne := List.mem_takeWhile_imp hmem
  simp at hne

theorem notMem_of_cut {before after : List Char} (h : cut c text = some (before, after)) :
    c ∉ before := by
  rw [cut] at h
  split at h
  · cases h
    exact notMem_takeWhile c text
  · cases h

/-- What is before and after the cut is part of the text. -/
theorem subset_of_cut {before after : List Char} (h : cut c text = some (before, after)) :
    before ⊆ text ∧ after ⊆ text := by
  rw [cut] at h
  split at h
  · cases h
    refine ⟨(List.takeWhile_prefix _).subset, ?_⟩
    exact List.Subset.trans (List.tail_sublist _).subset (List.dropWhile_suffix _).subset
  · cases h

theorem eq_of_cut {before after : List Char} (h : cut c text = some (before, after)) :
    text = before ++ c :: after := by
  rw [cut] at h
  split at h
  · rename_i hmem
    have hdrop : text.dropWhile (· ≠ c) ≠ [] := by
      intro hnil
      have hne := List.dropWhile_eq_nil_iff.mp hnil c hmem
      simp at hne
    have hhead : (text.dropWhile (· ≠ c)).head hdrop = c := by
      have hnot := List.head_dropWhile_not (fun d => decide (d ≠ c)) hdrop
      simpa using hnot
    cases h
    conv_lhs => rw [← List.takeWhile_append_dropWhile (p := fun d => decide (d ≠ c)) (l := text)]
    rw [← List.cons_head_tail hdrop, hhead, List.tail_cons]
  · cases h

theorem cut_append_of_cut {before after : List Char} (h : cut c text = some (before, after))
    (rest : List Char) : cut c (text ++ rest) = some (before, after ++ rest) := by
  rw [eq_of_cut h, List.append_assoc, List.cons_append]
  exact cut_append (notMem_of_cut h) (after ++ rest)

theorem notMem_of_cut_none (h : cut c text = none) : c ∉ text := by
  intro hmem
  rw [cut, if_pos hmem] at h
  cases h

end Cut

section At

variable {sep : List Char}

theorem length_le_of_cutAt {text before after : List Char}
    (h : cutAt sep text = some (before, after)) : sep.length ≤ text.length := by
  induction text generalizing before with
  | nil =>
      rw [cutAt] at h
      split at h
      · rename_i hsep
        rw [hsep]
      · cases h
  | cons c text ih =>
      rw [cutAt] at h
      split at h
      · rename_i hprefix
        exact (List.isPrefixOf_iff_prefix.mp hprefix).length_le
      · obtain ⟨r, hr, heq⟩ := Option.map_eq_some_iff.mp h
        cases heq
        exact Nat.le_succ_of_le (ih hr)

/-- The first occurrence stays the first one in a longer text. -/
theorem cutAt_append_of_cutAt {text before after : List Char}
    (h : cutAt sep text = some (before, after)) (rest : List Char) :
    cutAt sep (text ++ rest) = some (before, after ++ rest) := by
  induction text generalizing before with
  | nil =>
      rw [cutAt] at h
      split at h
      · rename_i hsep
        cases h
        cases rest with
        | nil => rw [List.append_nil, cutAt, if_pos hsep]
        | cons c rest => simp [cutAt, hsep]
      · cases h
  | cons c text ih =>
      rw [cutAt] at h
      rw [List.cons_append, cutAt]
      split at h
      · rename_i hprefix
        cases h
        have hsep := List.isPrefixOf_iff_prefix.mp hprefix
        have hlong : sep.isPrefixOf (c :: (text ++ rest)) = true :=
          List.isPrefixOf_iff_prefix.mpr (hsep.trans (List.prefix_append (c :: text) rest))
        rw [if_pos hlong, ← List.cons_append, List.drop_append_of_le_length hsep.length_le]
      · rename_i hprefix
        obtain ⟨r, hr, heq⟩ := Option.map_eq_some_iff.mp h
        cases heq
        have hlength := Nat.le_succ_of_le (length_le_of_cutAt hr)
        have hlong : ¬ sep.isPrefixOf (c :: (text ++ rest)) = true := by
          intro hlong
          have hsep := List.isPrefixOf_iff_prefix.mp hlong
          have hshort := List.prefix_of_prefix_length_le hsep
            (List.prefix_append (c :: text) rest) hlength
          exact hprefix (List.isPrefixOf_iff_prefix.mpr hshort)
        rw [if_neg hlong, ih hr]
        rfl

/-- An occurrence in front of another one does not need its last character. -/
theorem prefix_dropLast_iff (hsep : sep ≠ []) (c : Char) (before after : List Char) :
    sep <+: c :: (before ++ (sep ++ after)) ↔ sep <+: c :: (before ++ sep.dropLast) := by
  have hpos : 0 < sep.length := List.length_pos_iff.mpr hsep
  have hshort : c :: (before ++ sep.dropLast) <+: c :: (before ++ (sep ++ after)) := by
    refine ⟨sep.getLast hsep :: after, ?_⟩
    rw [List.cons_append, List.append_assoc, List.append_cons, List.dropLast_concat_getLast]
  constructor
  · intro h
    refine List.prefix_of_prefix_length_le h hshort ?_
    rw [List.length_cons, List.length_append, List.length_dropLast]
    omega
  · exact fun h => h.trans hshort

/-- The cut is at the first occurrence. -/
theorem cutAt_eq_some_iff (hsep : sep ≠ []) {text before after : List Char} :
    cutAt sep text = some (before, after) ↔
      text = before ++ (sep ++ after) ∧ ¬ sep <:+: before ++ sep.dropLast := by
  have hself : ¬ sep <:+: sep.dropLast := by
    intro h
    have hlength := h.length_le
    have hpos : 0 < sep.length := List.length_pos_iff.mpr hsep
    rw [List.length_dropLast] at hlength
    omega
  induction text generalizing before with
  | nil =>
      rw [cutAt, if_neg hsep]
      constructor
      · rintro ⟨⟩
      · rintro ⟨heq, -⟩
        have hnil := (List.append_eq_nil_iff.mp heq.symm).2
        exact absurd (List.append_eq_nil_iff.mp hnil).1 hsep
  | cons c rest ih =>
      rw [cutAt]
      by_cases hbefore : sep <+: c :: rest
      · rw [if_pos (List.isPrefixOf_iff_prefix.mpr hbefore)]
        constructor
        · intro heq
          cases heq
          exact ⟨(List.prefix_iff_eq_append.mp hbefore).symm, hself⟩
        · rintro ⟨heq, hfirst⟩
          cases before with
          | nil =>
              rw [heq, List.nil_append, List.drop_left]
          | cons d before =>
              rw [heq, List.cons_append, prefix_dropLast_iff hsep] at hbefore
              exact absurd hbefore.isInfix hfirst
      · rw [if_neg fun h => hbefore (List.isPrefixOf_iff_prefix.mp h), Option.map_eq_some_iff]
        constructor
        · rintro ⟨⟨before', after'⟩, hr, heq⟩
          cases heq
          obtain ⟨rfl, hfirst⟩ := ih.mp hr
          rw [prefix_dropLast_iff hsep] at hbefore
          refine ⟨rfl, ?_⟩
          rw [List.cons_append, List.infix_cons_iff, not_or]
          exact ⟨hbefore, hfirst⟩
        · rintro ⟨heq, hfirst⟩
          cases before with
          | nil =>
              rw [List.nil_append] at heq
              exact absurd ⟨after, heq.symm⟩ hbefore
          | cons d before =>
              rw [List.cons_append, List.cons.injEq] at heq
              rw [List.cons_append, List.infix_cons_iff, not_or] at hfirst
              obtain ⟨rfl, rfl⟩ := heq
              exact ⟨(before, after), ih.mpr ⟨rfl, hfirst.2⟩, rfl⟩

theorem cutAt_of_infix (hsep : sep ≠ []) {text : List Char} (h : sep <:+: text) :
    ∃ before after, cutAt sep text = some (before, after) := by
  induction text with
  | nil => exact absurd (List.infix_nil.mp h) hsep
  | cons c rest ih =>
      rw [cutAt]
      split
      · exact ⟨_, _, rfl⟩
      · rename_i hbefore
        rcases List.infix_cons_iff.mp h with hhead | hrest
        · exact absurd (List.isPrefixOf_iff_prefix.mpr hhead) hbefore
        · obtain ⟨before, after, hcut⟩ := ih hrest
          exact ⟨c :: before, after, by rw [hcut]; rfl⟩

end At

section Last

variable {c : Char} {text : List Char}

theorem notMem_afterLast (c : Char) (text : List Char) : c ∉ afterLast c text := by
  rw [afterLast, List.mem_reverse]
  exact notMem_takeWhile c text.reverse

theorem afterLast_append (h : c ∉ text) (before : List Char) :
    afterLast c (before ++ c :: text) = text := by
  have hreverse : c ∉ text.reverse := fun hmem => h (List.mem_reverse.mp hmem)
  rw [afterLast, List.reverse_append, List.reverse_cons, List.append_assoc,
    List.takeWhile_append_of_pos (all_ne_of_notMem hreverse)]
  simp

theorem beforeLast_append (h : c ∉ text) (before : List Char) :
    beforeLast c (before ++ c :: text) = before := by
  have hreverse : c ∉ text.reverse := fun hmem => h (List.mem_reverse.mp hmem)
  rw [beforeLast, List.reverse_append, List.reverse_cons, List.append_assoc,
    List.dropWhile_append_of_pos (all_ne_of_notMem hreverse)]
  simp

end Last

section Split

variable {c : Char}

/-- Parts with the separator before each of them. -/
def joined (c : Char) (parts : List (List Char)) : List Char :=
  parts.flatMap (c :: ·)

theorem joined_cons (c : Char) (part : List Char) (parts : List (List Char)) :
    joined c (part :: parts) = c :: (part ++ joined c parts) := by
  simp [joined]

theorem joined_append (c : Char) (parts parts' : List (List Char)) :
    joined c (parts ++ parts') = joined c parts ++ joined c parts' := by
  simp [joined]

/-- What was put together is split again. -/
theorem splitOn_joined {part : List Char} {parts : List (List Char)}
    (h : ∀ p ∈ part :: parts, c ∉ p) :
    (part ++ joined c parts).splitOn c = part :: parts := by
  have hpart : c ∉ part := h part List.mem_cons_self
  induction parts generalizing part with
  | nil =>
      rw [joined, List.flatMap_nil, List.append_nil]
      exact List.splitOn_eq_singleton hpart
  | cons part' parts ih =>
      have hrest : ∀ p ∈ part' :: parts, c ∉ p := fun p hp => h p (List.mem_cons_of_mem part hp)
      rw [joined_cons, List.splitOn_append_cons_self_of_not_mem hpart]
      rw [ih hrest (hrest part' List.mem_cons_self)]

/-- No part contains the separator. -/
theorem notMem_of_mem_splitOn {text part : List Char} (h : part ∈ text.splitOn c) :
    c ∉ part := by
  induction text generalizing part with
  | nil =>
      rw [List.splitOn_nil, List.mem_singleton] at h
      rw [h]
      exact List.not_mem_nil
  | cons a text ih =>
      rw [List.splitOn_cons_eq_if_modifyHead] at h
      split at h
      · rcases List.mem_cons.mp h with rfl | h
        · exact List.not_mem_nil
        · exact ih h
      · rename_i hne
        cases hsplit : text.splitOn c with
        | nil => exact absurd hsplit (List.splitOn_ne_nil c text)
        | cons first rest =>
            rw [hsplit] at ih
            rw [hsplit, List.modifyHead_cons] at h
            rcases List.mem_cons.mp h with rfl | h
            · rw [List.mem_cons, not_or]
              refine ⟨?_, ih List.mem_cons_self⟩
              rintro rfl
              exact hne (beq_self_eq_true _)
            · exact ih (List.mem_cons_of_mem first h)

/-- The parts are parts of the text. -/
theorem mem_of_mem_splitOn {text part : List Char} {d : Char} (h : part ∈ text.splitOn c)
    (hd : d ∈ part) : d ∈ text := by
  induction text generalizing part with
  | nil =>
      rw [List.splitOn_nil, List.mem_singleton] at h
      rwa [h] at hd
  | cons a text ih =>
      rw [List.splitOn_cons_eq_if_modifyHead] at h
      split at h
      · rcases List.mem_cons.mp h with rfl | h
        · cases hd
        · exact List.mem_cons_of_mem a (ih h hd)
      · obtain ⟨first, rest, hsplit⟩ :=
          List.exists_cons_of_ne_nil (List.splitOn_ne_nil c text)
        rw [hsplit] at ih
        rw [hsplit, List.modifyHead_cons] at h
        rcases List.mem_cons.mp h with rfl | h
        · rcases List.mem_cons.mp hd with rfl | hd
          · exact List.mem_cons_self
          · exact List.mem_cons_of_mem a (ih List.mem_cons_self hd)
        · exact List.mem_cons_of_mem a (ih (List.mem_cons_of_mem first h) hd)

/-- Every other character of a text is in a part of it. -/
theorem exists_mem_splitOn {text : List Char} {d : Char} (hd : d ∈ text) (hne : d ≠ c) :
    ∃ part ∈ text.splitOn c, d ∈ part := by
  induction text with
  | nil => cases hd
  | cons a text ih =>
      rw [List.splitOn_cons_eq_if_modifyHead]
      obtain ⟨first, rest, hsplit⟩ := List.exists_cons_of_ne_nil (List.splitOn_ne_nil c text)
      rw [hsplit] at ih ⊢
      rcases List.mem_cons.mp hd with rfl | hd
      · rw [if_neg (by simpa using hne), List.modifyHead_cons]
        exact ⟨d :: first, List.mem_cons_self, List.mem_cons_self⟩
      · obtain ⟨part, hpart, hmem⟩ := ih hd
        split
        · exact ⟨part, List.mem_cons_of_mem [] hpart, hmem⟩
        · rw [List.modifyHead_cons]
          rcases List.mem_cons.mp hpart with rfl | hpart
          · exact ⟨a :: part, List.mem_cons_self, List.mem_cons_of_mem a hmem⟩
          · exact ⟨part, List.mem_cons_of_mem _ hpart, hmem⟩

end Split

section Delimiters

variable {α : Type} (p q : α → Bool)

theorem length_splitOnP (l : List α) : (l.splitOnP p).length = l.countP p + 1 := by
  induction l with
  | nil => rfl
  | cons a l ih =>
      rw [List.splitOnP_cons_eq_if_modifyHead]
      by_cases ha : p a = true
      · rw [if_pos ha, List.length_cons, ih, List.countP_cons_of_pos ha]
      · rw [if_neg ha, List.length_modifyHead, ih, List.countP_cons_of_neg ha]

/-- To split at two kinds of delimiters is to split every part again. -/
theorem splitOnP_or (l : List α) :
    l.splitOnP (fun a => p a || q a) = (l.splitOnP p).flatMap (List.splitOnP q) := by
  induction l with
  | nil => rfl
  | cons a l ih =>
      obtain ⟨first, rest, hsplit⟩ := List.exists_cons_of_ne_nil (List.splitOnP_ne_nil p l)
      rw [hsplit, List.flatMap_cons] at ih
      rw [List.splitOnP_cons_eq_if_modifyHead, List.splitOnP_cons_eq_if_modifyHead, hsplit, ih]
      by_cases hp : p a = true
      · simp [hp]
      · obtain ⟨x, xs, hx⟩ := List.exists_cons_of_ne_nil (List.splitOnP_ne_nil q first)
        by_cases hq : q a = true
        · simp [hp, hq, List.splitOnP_cons_eq_if_modifyHead]
        · simp [hp, hq, List.splitOnP_cons_eq_if_modifyHead, hx]

end Delimiters

end Texts
