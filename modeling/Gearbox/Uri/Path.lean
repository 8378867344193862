import Gearbox.Uri.Canonical

/-!
# Canonical paths

`Uri::canonicalize_path` splits a path into its segments and walks over the vector of the segments
with an iterator. An empty segment and `.` are erased at the iterator, and `..` is erased together
with the segment before the iterator, if there is one. `eraseSegments` is this loop on the vector
and the index of the iterator.

`stackPath` is what the loop is for: a fold over the segments with a stack.
-/

namespace Gearbox

open Texts

namespace Uri

section Loop

theorem eraseIdx_decreasing {parts : List (List Char)} {p : ℕ} {part : List Char}
    (h : parts[p]? = some part) : (parts.eraseIdx p).length - p < parts.length - p := by
  have hp : p < parts.length := (List.getElem?_eq_some_iff.mp h).1
  rw [List.length_eraseIdx_of_lt hp]
  omega

theorem eraseIdx_twice_decreasing {parts : List (List Char)} {p : ℕ} {part : List Char}
    (h : parts[p]? = some part) (hne : p ≠ 0) :
    ((parts.eraseIdx p).eraseIdx (p - 1)).length - (p - 1) < parts.length - p := by
  have hp : p < parts.length := (List.getElem?_eq_some_iff.mp h).1
  have hlength := List.length_eraseIdx_of_lt hp
  rw [List.length_eraseIdx_of_lt (by omega), hlength]
  omega

/-- The loop of `canonicalize_path` on the vector `parts`, with the iterator at the index `p`. -/
def eraseSegments (parts : List (List Char)) (p : ℕ) : List (List Char) :=
  match _h : parts[p]? with
  | none => parts
  | some part =>
    if part = [] ∨ part = ['.'] then eraseSegments (parts.eraseIdx p) p
    else if part = ['.', '.'] then
      if p = 0 then eraseSegments (parts.eraseIdx p) p
      else eraseSegments ((parts.eraseIdx p).eraseIdx (p - 1)) (p - 1)
    else eraseSegments parts (p + 1)
termination_by parts.length - p
decreasing_by
  · exact eraseIdx_decreasing _h
  · exact eraseIdx_decreasing _h
  · exact eraseIdx_twice_decreasing _h ‹p ≠ 0›
  · have hp : p < parts.length := (List.getElem?_eq_some_iff.mp _h).1
    omega

/-- `Uri::canonicalize_path` with its loop on the vector -/
def canonicalizeInPlace (path : List Char) : List Char :=
  if path = [] then
    ['/']
  else
    joined '/' (eraseSegments (path.splitOn '/') 0) ++
      if path.getLast? = some '/' then ['/'] else []

/-- A segment and the stack of the segments before it, the last one first. -/
def pushSegment (stack : List (List Char)) (segment : List Char) : List (List Char) :=
  if segment = [] ∨ segment = ['.'] then stack
  else if segment = ['.', '.'] then stack.tail
  else segment :: stack

/-- The stack after all segments of a path. -/
def segmentStack (path : List Char) : List (List Char) :=
  (path.splitOn '/').foldl pushSegment []

/-- The canonical path by a stack. -/
def stackPath (path : List Char) : List Char :=
  if path = [] then
    ['/']
  else
    (segmentStack path).reverse.flatMap ('/' :: ·) ++
      if path.getLast? = some '/' then ['/'] else []

theorem eraseIdx_reverse (kept : List (List Char)) (part : List Char)
    (rest : List (List Char)) :
    (kept.reverse ++ part :: rest).eraseIdx kept.length = kept.reverse ++ rest := by
  rw [← kept.length_reverse, List.eraseIdx_append_of_length_le (Nat.le_refl _), Nat.sub_self]
  rfl

/-- The segments before the iterator are those that are kept. -/
theorem eraseSegments_eq (kept rest : List (List Char)) :
    eraseSegments (kept.reverse ++ rest) kept.length = normalize kept rest := by
  induction rest generalizing kept with
  | nil =>
      have hend : kept.reverse[kept.length]? = none := by simp
      rw [List.append_nil, eraseSegments, hend, normalize]
  | cons part rest ih =>
      have hlength : kept.reverse.length = kept.length := List.length_reverse
      have hpart : (kept.reverse ++ part :: rest)[kept.length]? = some part := by
        rw [← hlength, List.getElem?_append_right (Nat.le_refl _), Nat.sub_self]
        rfl
      rw [eraseSegments, hpart, normalize]
      dsimp only
      rw [eraseIdx_reverse, ih]
      split
      · rfl
      · split
        · cases kept with
          | nil => rfl
          | cons before kept =>
              have hbefore : ((before :: kept).reverse ++ rest).eraseIdx
                  ((before :: kept).length - 1) = kept.reverse ++ rest := by
                rw [List.reverse_cons, List.append_assoc]
                exact eraseIdx_reverse kept before rest
              rw [if_neg (by simp), hbefore]
              exact ih kept
        · have hnext := ih (part :: kept)
          rw [List.reverse_cons, List.append_assoc] at hnext
          exact hnext

theorem canonicalizeInPlace_eq (path : List Char) :
    canonicalizeInPlace path = canonicalizePath path := by
  have hloop : eraseSegments (path.splitOn '/') 0 = normalize [] (path.splitOn '/') :=
    eraseSegments_eq [] (path.splitOn '/')
  rw [canonicalizeInPlace, canonicalizePath, hloop]

theorem normalize_eq_foldl (kept rest : List (List Char)) :
    normalize kept rest = (rest.foldl pushSegment kept).reverse := by
  induction rest generalizing kept with
  | nil => rfl
  | cons part rest ih =>
      rw [normalize, List.foldl_cons, pushSegment]
      split
      · exact ih kept
      · split
        · exact ih kept.tail
        · exact ih (part :: kept)

theorem canonicalizePath_eq_stackPath (path : List Char) :
    canonicalizePath path = stackPath path := by
  rw [canonicalizePath, stackPath, normalize_eq_foldl]
  rfl

end Loop

section Segments

/-- A segment that stays in a canonical path. -/
structure Ordinary (segment : List Char) : Prop where
  ne_nil : segment ≠ []
  ne_dot : segment ≠ ['.']
  ne_dots : segment ≠ ['.', '.']
  notMem : '/' ∉ segment

theorem ordinary_of_mem_foldl {segments stack : List (List Char)}
    (hsegments : ∀ segment ∈ segments, '/' ∉ segment)
    (hstack : ∀ segment ∈ stack, Ordinary segment) :
    ∀ segment ∈ segments.foldl pushSegment stack, Ordinary segment := by
  induction segments generalizing stack with
  | nil => exact hstack
  | cons segment segments ih =>
      rw [List.foldl_cons, pushSegment]
      have hrest : ∀ s ∈ segments, '/' ∉ s :=
        fun s hs => hsegments s (List.mem_cons_of_mem segment hs)
      split
      · exact ih hrest hstack
      · rename_i hkept
        obtain ⟨hne, hdot⟩ := not_or.mp hkept
        split
        · exact ih hrest fun s hs => hstack s (List.mem_of_mem_tail hs)
        · rename_i hdots
          refine ih hrest fun s hs => ?_
          rcases List.mem_cons.mp hs with rfl | hs
          · exact ⟨hne, hdot, hdots, hsegments s List.mem_cons_self⟩
          · exact hstack s hs

/-- The segments that are kept, the first one first. -/
def keptSegments (path : List Char) : List (List Char) :=
  (segmentStack path).reverse

theorem ordinary_of_mem_keptSegments {path segment : List Char}
    (h : segment ∈ keptSegments path) : Ordinary segment := by
  rw [keptSegments, List.mem_reverse] at h
  refine ordinary_of_mem_foldl (fun _ hs => notMem_of_mem_splitOn hs) ?_ segment h
  exact fun _ hs => absurd hs List.not_mem_nil

/-- The canonical path ends with a separator. -/
def EndsOpen (path : List Char) : Prop :=
  path = [] ∨ path.getLast? = some '/'

instance (path : List Char) : Decidable (EndsOpen path) :=
  inferInstanceAs (Decidable (path = [] ∨ path.getLast? = some '/'))

/-- The parts of the canonical path: the segments, and an empty part at the end of an open
path. -/
def canonicalParts (path : List Char) : List (List Char) :=
  keptSegments path ++ if EndsOpen path then [[]] else []

theorem canonicalizePath_eq_joined (path : List Char) :
    canonicalizePath path = joined '/' (canonicalParts path) := by
  rw [canonicalizePath_eq_stackPath, stackPath, canonicalParts, joined_append, keptSegments]
  by_cases hnil : path = []
  · subst hnil
    rfl
  · have hopen : EndsOpen path ↔ path.getLast? = some '/' := or_iff_right hnil
    simp only [hopen]
    rw [if_neg hnil]
    split
    · rfl
    · rfl

theorem notMem_canonicalParts {path part : List Char} (h : part ∈ canonicalParts path) :
    '/' ∉ part := by
  rw [canonicalParts, List.mem_append] at h
  rcases h with h | h
  · exact (ordinary_of_mem_keptSegments h).notMem
  · split at h
    · rw [List.mem_singleton.mp h]
      exact List.not_mem_nil
    · cases h

theorem splitOn_canonicalizePath (path : List Char) :
    (canonicalizePath path).splitOn '/' = [] :: canonicalParts path := by
  have hparts : ∀ p ∈ [] :: canonicalParts path, '/' ∉ p := by
    intro p hp
    rcases List.mem_cons.mp hp with rfl | hp
    · exact List.not_mem_nil
    · exact notMem_canonicalParts hp
  have hsplit := splitOn_joined hparts
  rwa [List.nil_append, ← canonicalizePath_eq_joined] at hsplit

theorem dropLast_canonicalParts (path : List Char) :
    ∀ part ∈ (canonicalParts path).dropLast, part ∈ keptSegments path := by
  intro part hpart
  rw [canonicalParts] at hpart
  split at hpart
  · rwa [List.dropLast_concat] at hpart
  · rw [List.append_nil] at hpart
    exact (List.dropLast_sublist _).subset hpart

/-- The loop on the vector gives the canonical path by a stack. No segment of it is `.` or `..`,
and no segment but the first and the last is empty. -/
theorem canonicalizeInPlace_stack (path : List Char) :
    canonicalizeInPlace path = stackPath path ∧
      (∀ segment ∈ (canonicalizeInPlace path).splitOn '/',
        segment ≠ ['.'] ∧ segment ≠ ['.', '.']) ∧
      ∀ segment ∈ ((canonicalizeInPlace path).splitOn '/').tail.dropLast, segment ≠ [] := by
  rw [canonicalizeInPlace_eq, splitOn_canonicalizePath, List.tail_cons]
  refine ⟨canonicalizePath_eq_stackPath path, ?_, ?_⟩
  · intro segment hsegment
    rcases List.mem_cons.mp hsegment with rfl | hsegment
    · decide
    · rw [canonicalParts, List.mem_append] at hsegment
      rcases hsegment with hsegment | hsegment
      · have hordinary := ordinary_of_mem_keptSegments hsegment
        exact ⟨hordinary.ne_dot, hordinary.ne_dots⟩
      · split at hsegment
        · rw [List.mem_singleton.mp hsegment]
          decide
        · cases hsegment
  · intro segment hsegment
    exact (ordinary_of_mem_keptSegments (dropLast_canonicalParts path segment hsegment)).ne_nil

end Segments

end Uri

end Gearbox
