import Gearbox.Json.Conform

/-!
# Copies

`Json::copy` makes an equal tree. Its loop over an array counts in `unsigned int`, so that
it does not end for an array of `2 ^ 32` or more elements.
-/

namespace Gearbox

namespace Json

open Refinement

variable {D : Type}

mutual

/-- A copy of a tree with short arrays is the tree, and any other copy does not end. -/
theorem copy_cases : ∀ j : Json D,
    j.Bounded (2 ^ 32 - 1) ∧ copy j = .ok j ∨
      ¬ j.Bounded (2 ^ 32 - 1) ∧ copy j = .error .diverges
  | .object o => by
      rw [Bounded, copy]
      rcases copyMembers_cases o with ⟨hbounded, ho⟩ | ⟨hbounded, ho⟩
      · exact Or.inl ⟨hbounded, by rw [ho]; rfl⟩
      · exact Or.inr ⟨hbounded, by rw [ho]; rfl⟩
  | .array a => by
      rw [Bounded, copy]
      rcases copyElements_cases a with ⟨hbounded, ha⟩ | ⟨hbounded, ha⟩
      · rw [ha, ok_bind]
        by_cases hlength : a.length < 2 ^ 32
        · exact Or.inl ⟨⟨by omega, hbounded⟩, by rw [if_pos hlength]; rfl⟩
        · exact Or.inr ⟨fun h => absurd h.1 (by omega), by rw [if_neg hlength]; rfl⟩
      · exact Or.inr ⟨fun h => hbounded h.2, by rw [ha]; rfl⟩
  | .undef => Or.inl ⟨trivial, rfl⟩
  | .bool _ => Or.inl ⟨trivial, rfl⟩
  | .int _ => Or.inl ⟨trivial, rfl⟩
  | .double _ => Or.inl ⟨trivial, rfl⟩
  | .string _ => Or.inl ⟨trivial, rfl⟩

theorem copyMembers_cases : ∀ o : List (String × Json D),
    BoundedMembers (2 ^ 32 - 1) o ∧ copyMembers o = .ok o ∨
      ¬ BoundedMembers (2 ^ 32 - 1) o ∧ copyMembers o = .error .diverges
  | [] => Or.inl ⟨trivial, rfl⟩
  | (k, j) :: rest => by
      rw [BoundedMembers, copyMembers]
      rcases copy_cases j with ⟨hj, hcopy⟩ | ⟨hj, hcopy⟩
      · rw [hcopy, ok_bind]
        rcases copyMembers_cases rest with ⟨hrest, hcopies⟩ | ⟨hrest, hcopies⟩
        · exact Or.inl ⟨⟨hj, hrest⟩, by rw [hcopies]; rfl⟩
        · exact Or.inr ⟨fun h => hrest h.2, by rw [hcopies]; rfl⟩
      · exact Or.inr ⟨fun h => hj h.1, by rw [hcopy]; rfl⟩

theorem copyElements_cases : ∀ a : List (Json D),
    BoundedElements (2 ^ 32 - 1) a ∧ copyElements a = .ok a ∨
      ¬ BoundedElements (2 ^ 32 - 1) a ∧ copyElements a = .error .diverges
  | [] => Or.inl ⟨trivial, rfl⟩
  | j :: rest => by
      rw [BoundedElements, copyElements]
      rcases copy_cases j with ⟨hj, hcopy⟩ | ⟨hj, hcopy⟩
      · rw [hcopy, ok_bind]
        rcases copyElements_cases rest with ⟨hrest, hcopies⟩ | ⟨hrest, hcopies⟩
        · exact Or.inl ⟨⟨hj, hrest⟩, by rw [hcopies]; rfl⟩
        · exact Or.inr ⟨fun h => hrest h.2, by rw [hcopies]; rfl⟩
      · exact Or.inr ⟨fun h => hj h.1, by rw [hcopy]; rfl⟩

end

theorem copy_eq {j j' : Json D} (h : copy j = .ok j') : j' = j := by
  rcases copy_cases j with ⟨-, hcopy⟩ | ⟨-, hcopy⟩
  · rw [hcopy] at h
    cases h
    rfl
  · rw [hcopy] at h
    cases h

theorem copy_of_bounded {j : Json D} (h : j.Bounded (2 ^ 32 - 1)) : copy j = .ok j := by
  rcases copy_cases j with ⟨-, hcopy⟩ | ⟨hbounded, -⟩
  · exact hcopy
  · exact absurd h hbounded

theorem copy_of_not_bounded {j : Json D} (h : ¬ j.Bounded (2 ^ 32 - 1)) :
    copy j = .error .diverges := by
  rcases copy_cases j with ⟨hbounded, -⟩ | ⟨-, hcopy⟩
  · exact absurd hbounded h
  · exact hcopy

end Json

end Gearbox
