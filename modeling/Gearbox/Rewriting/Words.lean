import Mathlib.Data.List.Forall2
import Mathlib.Logic.Function.Iterate
import Mathlib.Tactic.Common

/-!
# Simultaneous rewriting of words

Every letter of a word is replaced by a word, all at once, and this is repeated. The word `Rests`
if it does not change any more from some round on.

A letter is `Erasable` if nothing is left of it in the end, and it is a `Keeper` if its word is the
letter itself between erasable letters. A letter `Settles` if it is a keeper, or if all letters of
its word settle. A word rests if and only if all its letters settle: the letters of a fixed word
that are not erasable must reproduce themselves one by one.
-/

namespace Rewriting

variable {X : Type} (h : X → List X)

/-- One round. -/
def step (w : List X) : List X :=
  w.flatMap h

/-- The word does not change any more from some round on. -/
def Rests (w : List X) : Prop :=
  ∃ k, (step h)^[k + 1] w = (step h)^[k] w

/-- Nothing is left of the letter in the end. -/
inductive Erasable : X → Prop where
  | mk {x : X} (all : ∀ y ∈ h x, Erasable y) : Erasable x

/-- The letter reproduces itself, together with erasable letters. -/
def Keeper (x : X) : Prop :=
  ∃ u v, h x = u ++ x :: v ∧ (∀ y ∈ u, Erasable h y) ∧ ∀ y ∈ v, Erasable h y

/-- What comes from the letter does not change any more from some round on. -/
inductive Settles : X → Prop where
  | keeper {x : X} (kept : Keeper h x) : Settles x
  | mk {x : X} (all : ∀ y ∈ h x, Settles y) : Settles x

section Rounds

variable {h} {u v w : List X} {x : X}

@[simp] theorem step_nil : step h [] = [] := rfl

theorem step_singleton (x : X) : step h [x] = h x := by
  simp [step]

theorem step_append (u v : List X) : step h (u ++ v) = step h u ++ step h v :=
  List.flatMap_append

theorem iterate_append (k : ℕ) (u v : List X) :
    (step h)^[k] (u ++ v) = (step h)^[k] u ++ (step h)^[k] v := by
  induction k generalizing u v with
  | zero => rfl
  | succ k ih => rw [Function.iterate_succ_apply, step_append, ih]; rfl

theorem iterate_nil (k : ℕ) : (step h)^[k] [] = [] :=
  Function.iterate_fixed rfl k

theorem iterate_singleton (k : ℕ) (x : X) :
    (step h)^[k + 1] [x] = (step h)^[k] (h x) := by
  rw [Function.iterate_succ_apply, step_singleton]

/-- From the round `k` on, the word does not change any more. -/
theorem rests_iff_forall_le :
    Rests h w ↔ ∃ k, ∀ j, k ≤ j → (step h)^[j + 1] w = (step h)^[j] w := by
  constructor
  · rintro ⟨k, hk⟩
    refine ⟨k, fun j hj => ?_⟩
    obtain ⟨i, rfl⟩ := Nat.exists_eq_add_of_le hj
    rw [Nat.add_right_comm, Nat.add_comm (k + 1) i, Function.iterate_add_apply, hk,
      Nat.add_comm k i, Function.iterate_add_apply]
  · rintro ⟨k, hk⟩
    exact ⟨k, hk k (Nat.le_refl k)⟩

theorem Rests.append (hu : Rests h u) (hv : Rests h v) : Rests h (u ++ v) := by
  obtain ⟨i, hi⟩ := rests_iff_forall_le.mp hu
  obtain ⟨j, hj⟩ := rests_iff_forall_le.mp hv
  refine ⟨max i j, ?_⟩
  rw [iterate_append, iterate_append, hi _ (Nat.le_max_left i j), hj _ (Nat.le_max_right i j)]

theorem rests_of_forall (hw : ∀ x ∈ w, Rests h [x]) : Rests h w := by
  induction w with
  | nil => exact ⟨0, rfl⟩
  | cons x w ih =>
      have hx := hw x List.mem_cons_self
      exact hx.append (ih fun y hy => hw y (List.mem_cons_of_mem x hy))

/-- The word of a letter rests. -/
theorem rests_singleton (hx : Rests h (h x)) : Rests h [x] := by
  obtain ⟨k, hk⟩ := hx
  refine ⟨k + 1, ?_⟩
  rw [iterate_singleton, iterate_singleton, hk]

end Rounds

section Erasing

variable {h} {w : List X} {x : X}

/-- Nothing is left of the word from some round on. -/
def Vanishes (h : X → List X) (w : List X) : Prop :=
  ∃ k, ∀ j, k ≤ j → (step h)^[j] w = []

theorem vanishes_of_forall (hw : ∀ x ∈ w, Vanishes h [x]) : Vanishes h w := by
  induction w with
  | nil => exact ⟨0, fun j _ => iterate_nil j⟩
  | cons x w ih =>
      obtain ⟨i, hi⟩ := hw x List.mem_cons_self
      obtain ⟨j, hj⟩ := ih fun y hy => hw y (List.mem_cons_of_mem x hy)
      refine ⟨max i j, fun k hk => ?_⟩
      have hsplit : (step h)^[k] ([x] ++ w) = (step h)^[k] [x] ++ (step h)^[k] w :=
        iterate_append k [x] w
      rw [hi k (by omega), hj k (by omega)] at hsplit
      exact hsplit

theorem Erasable.vanishes (hx : Erasable h x) : Vanishes h [x] := by
  induction hx with
  | mk _ ih =>
      obtain ⟨k, hk⟩ := vanishes_of_forall ih
      refine ⟨k + 1, fun j hj => ?_⟩
      obtain ⟨i, rfl⟩ := Nat.exists_eq_add_of_le' hj
      rw [← Nat.add_assoc, iterate_singleton]
      exact hk _ (by omega)

/-- The erasable letters around a keeper disappear, so that what comes from it in one round more
is what came from it before. -/
theorem Keeper.rests (hx : Keeper h x) : Rests h [x] := by
  obtain ⟨u, v, hword, hu, hv⟩ := hx
  obtain ⟨i, hi⟩ := vanishes_of_forall fun y hy => (hu y hy).vanishes
  obtain ⟨j, hj⟩ := vanishes_of_forall fun y hy => (hv y hy).vanishes
  refine ⟨max i j, ?_⟩
  have hsplit : u ++ x :: v = u ++ ([x] ++ v) := rfl
  rw [iterate_singleton, hword, hsplit, iterate_append, iterate_append, hi _ (by omega),
    hj _ (by omega), List.nil_append, List.append_nil]

theorem Settles.rests (hx : Settles h x) : Rests h [x] := by
  induction hx with
  | keeper hkeeper => exact hkeeper.rests
  | mk _ ih => exact rests_singleton (rests_of_forall ih)

end Erasing

section Fixed

variable {h} {w : List X} {x : X}

theorem length_le_flatMap {Y : Type} {g : X → List Y} {l : List X}
    (hg : ∀ x ∈ l, g x ≠ []) : l.length ≤ (l.flatMap g).length := by
  induction l with
  | nil => exact Nat.zero_le _
  | cons x l ih =>
      have hx := List.length_pos_iff.mpr (hg x List.mem_cons_self)
      have hrest := ih fun y hy => hg y (List.mem_cons_of_mem x hy)
      rw [List.flatMap_cons, List.length_append, List.length_cons]
      omega

/-- If every letter of a list has a word that is not empty, and there are not more letters than
before, then every letter has one letter. -/
theorem forall_singleton_of_length {Y : Type} {g : X → List Y} {l : List X} {l' : List Y}
    (hg : ∀ x ∈ l, g x ≠ []) (hflat : l.flatMap g = l') (hlength : l'.length ≤ l.length) :
    List.Forall₂ (fun x y => g x = [y]) l l' := by
  induction l generalizing l' with
  | nil =>
      rw [List.flatMap_nil] at hflat
      rw [← hflat]
      exact .nil
  | cons x l ih =>
      have hrest : ∀ x ∈ l, g x ≠ [] := fun y hy => hg y (List.mem_cons_of_mem x hy)
      have hle := length_le_flatMap hrest
      obtain ⟨y, ys, hword⟩ := List.exists_cons_of_ne_nil (hg x List.mem_cons_self)
      rw [List.flatMap_cons, hword] at hflat
      subst hflat
      simp only [List.cons_append, List.length_cons, List.length_append] at hlength
      have hys : ys = [] := List.eq_nil_of_length_eq_zero (by omega)
      have htail : List.Forall₂ (fun x y => g x = [y]) l (l.flatMap g) := ih hrest rfl (by omega)
      subst hys
      exact .cons hword htail

open Classical in
/-- The letters of a word that are not erasable. -/
noncomputable def essence (h : X → List X) (w : List X) : List X :=
  w.filter fun x => ¬ Erasable h x

theorem mem_essence : x ∈ essence h w ↔ x ∈ w ∧ ¬ Erasable h x := by
  simp [essence]

theorem essence_eq_nil_iff : essence h w = [] ↔ ∀ x ∈ w, Erasable h x := by
  simp [essence]

theorem essence_append (u v : List X) : essence h (u ++ v) = essence h u ++ essence h v :=
  List.filter_append u v

/-- The word of a letter that is not erasable has such a letter again. -/
theorem essence_ne_nil (hx : ¬ Erasable h x) : essence h (h x) ≠ [] :=
  fun hnil => hx ⟨essence_eq_nil_iff.mp hnil⟩

theorem essence_of_erasable (hx : Erasable h x) : essence h (h x) = [] := by
  obtain ⟨hall⟩ := hx
  exact essence_eq_nil_iff.mpr hall

/-- What is left of a round comes from the letters that are not erasable. -/
theorem essence_step (w : List X) :
    essence h (step h w) = (essence h w).flatMap fun x => essence h (h x) := by
  induction w with
  | nil => rfl
  | cons x w ih =>
      have hcons : step h (x :: w) = h x ++ step h w := List.flatMap_cons
      rw [hcons, essence_append, ih]
      by_cases hx : Erasable h x
      · have hdrop : essence h (x :: w) = essence h w := by simp [essence, hx]
        rw [hdrop, essence_of_erasable hx, List.nil_append]
      · have hkeep : essence h (x :: w) = x :: essence h w := by simp [essence, hx]
        rw [hkeep, List.flatMap_cons]

/-- A letter whose word has one letter that is not erasable, and this is the letter itself. -/
theorem keeper_of_essence (hx : essence h (h x) = [x]) : Keeper h x := by
  obtain ⟨u, v, hword, hu, -, hv⟩ := List.filter_eq_cons_iff.mp hx
  refine ⟨u, v, hword, fun y hy => ?_, essence_eq_nil_iff.mp hv⟩
  simpa using hu y hy

theorem Erasable.settles (hx : Erasable h x) : Settles h x := by
  induction hx with
  | mk _ ih => exact .mk ih

/-- Every letter of a word that does not change settles. -/
theorem settles_of_fixed (hw : step h w = w) (hx : x ∈ w) : Settles h x := by
  by_cases herasable : Erasable h x
  · exact herasable.settles
  · have hflat : (essence h w).flatMap (fun y => essence h (h y)) = essence h w := by
      rw [← essence_step, hw]
    have hsame := forall_singleton_of_length
      (fun y hy => essence_ne_nil (mem_essence.mp hy).2) hflat (Nat.le_refl _)
    have hself := List.forall₂_same.mp hsame x (mem_essence.mpr ⟨hx, herasable⟩)
    exact .keeper (keeper_of_essence hself)

/-- If all letters settle after some rounds, then they settle at the beginning. -/
theorem settles_of_iterate (k : ℕ) (hw : ∀ x ∈ (step h)^[k] w, Settles h x) :
    ∀ x ∈ w, Settles h x := by
  induction k generalizing w with
  | zero => exact hw
  | succ k ih =>
      have hnext : ∀ x ∈ step h w, Settles h x := ih hw
      intro x hx
      exact .mk fun y hy => hnext y (List.mem_flatMap.mpr ⟨x, hx, hy⟩)

/-- A word rests if and only if all its letters settle. -/
theorem rests_iff : Rests h w ↔ ∀ x ∈ w, Settles h x := by
  constructor
  · rintro ⟨k, hk⟩
    rw [Function.iterate_succ_apply'] at hk
    exact settles_of_iterate k fun x hx => settles_of_fixed hk hx
  · exact fun hw => rests_of_forall fun x hx => (hw x hx).rests

end Fixed

section Reach

variable {h} {w : List X} {x : X}

/-- The letter is one of the word, or of the word of a letter that is reached. -/
inductive Reaches (h : X → List X) (w : List X) : X → Prop where
  | here {x : X} (mem : x ∈ w) : Reaches h w x
  | next {x y : X} (reached : Reaches h w x) (mem : y ∈ h x) : Reaches h w y

theorem Reaches.of_step (hx : Reaches h (step h w) x) : Reaches h w x := by
  induction hx with
  | here hmem =>
      obtain ⟨y, hy, hx⟩ := List.mem_flatMap.mp hmem
      exact .next (.here hy) hx
  | next _ hmem ih => exact .next ih hmem

/-- A letter that is reached is one of the word, or it is reached after a round. -/
theorem Reaches.mem_or_step (hx : Reaches h w x) : x ∈ w ∨ Reaches h (step h w) x := by
  induction hx with
  | here hmem => exact .inl hmem
  | @next x y _ hmem ih =>
      right
      rcases ih with hx | hx
      · exact .here (List.mem_flatMap.mpr ⟨x, hx, hmem⟩)
      · exact .next hx hmem

/-- A word that does not change reaches only its own letters. -/
theorem Reaches.mem_of_fixed (hx : Reaches h w x) (hw : step h w = w) : x ∈ w := by
  induction hx with
  | here hmem => exact hmem
  | @next x y _ hmem ih =>
      rw [← hw]
      exact List.mem_flatMap.mpr ⟨x, ih, hmem⟩

/-- The letters that are reached are the ones that appear in some round. -/
theorem reaches_iff : Reaches h w x ↔ ∃ k, x ∈ (step h)^[k] w := by
  constructor
  · intro hx
    induction hx with
    | here hmem => exact ⟨0, hmem⟩
    | @next x y _ hmem ih =>
        obtain ⟨k, hk⟩ := ih
        refine ⟨k + 1, ?_⟩
        rw [Function.iterate_succ_apply']
        exact List.mem_flatMap.mpr ⟨x, hk, hmem⟩
  · rintro ⟨k, hk⟩
    induction k generalizing w with
    | zero => exact .here hk
    | succ k ih => exact (ih hk).of_step

end Reach

end Rewriting
