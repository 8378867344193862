import Gearbox.Json.Copy
import Gearbox.Json.Numbers
import Gearbox.Json.Parents

/-!
# Round trips of trees

The text of a tree without `double` is parsed into a node, whatever the node holds. The
parse ends with the same tree there, and the parent of every node is its container. It
needs the text, which there is for a tree with short arrays only: the loop of the
generator over an array counts in `unsigned int`.
-/

namespace Gearbox

namespace Json

open Refinement

variable {D : Type}

/-- The context at the start of a parse without a schema. What the target held is freed,
and its parent stays. -/
def Context.over (target : Tree D) : Context D :=
  { Context.start none with json := { target with root := .undef } }

/-- `Json::parse` of a node without a schema. -/
def parseOver (env : Env D) (text : Text) (target : Tree D) : Except Failure Unit × Tree D :=
  let r := outcome (parseText env.throwing text) (Context.over target)
  (r.1, r.2.json)

mutual

/-- There is no `double`, and the integers are those of `int64_t`. -/
def Integral : Json D → Prop
  | .int n => IsInt64 n
  | .double _ => False
  | .object o => IntegralMembers o
  | .array a => IntegralElements a
  | _ => True

def IntegralMembers : List (String × Json D) → Prop
  | [] => True
  | (_, j) :: rest => Integral j ∧ IntegralMembers rest

def IntegralElements : List (Json D) → Prop
  | [] => True
  | j :: rest => Integral j ∧ IntegralElements rest

end

variable {env : Env D}

section Reread

theorem lexNumber_toString (hcast : env.lexInt = lexicalCast) {n : ℤ} (h : IsInt64 n) :
    lexNumber env (toString n) = .ok (.int n) := by
  rw [lexNumber, if_neg (dot_notMem_toString n), hcast, lexicalCast_toString h]

mutual

/-- A tree with short arrays is read from its text as it was, and there is no text of any
other tree. -/
theorem reread_cases (hcast : env.lexInt = lexicalCast) : ∀ j : Json D, j.Integral →
    j.Bounded (2 ^ 32 - 1) ∧ reread env j = some j ∨
      ¬ j.Bounded (2 ^ 32 - 1) ∧ reread env j = none
  | .object o, h => by
      rw [Integral] at h
      rw [Bounded, reread]
      rcases rereadMembers_cases hcast o h with ⟨hbounded, ho⟩ | ⟨hbounded, ho⟩
      · exact Or.inl ⟨hbounded, by rw [ho, Option.map_some]⟩
      · exact Or.inr ⟨hbounded, by rw [ho, Option.map_none]⟩
  | .array a, h => by
      rw [Integral] at h
      rw [Bounded, reread]
      rcases rereadElements_cases hcast a h with ⟨hbounded, ha⟩ | ⟨hbounded, ha⟩
      · by_cases hlength : a.length < 2 ^ 32
        · exact Or.inl ⟨⟨by omega, hbounded⟩, by rw [if_pos hlength, ha, Option.map_some]⟩
        · exact Or.inr ⟨fun h => absurd h.1 (by omega), if_neg hlength⟩
      · exact Or.inr ⟨fun h => hbounded h.2, by rw [ha, Option.map_none, ite_self]⟩
  | .int n, h => by
      rw [Integral] at h
      refine Or.inl ⟨trivial, ?_⟩
      rw [reread, lexNumber_toString hcast h]
      rfl
  | .double x, h => by
      rw [Integral] at h
      exact h.elim
  | .undef, _ => Or.inl ⟨trivial, rfl⟩
  | .bool _, _ => Or.inl ⟨trivial, rfl⟩
  | .string _, _ => Or.inl ⟨trivial, rfl⟩

theorem rereadMembers_cases (hcast : env.lexInt = lexicalCast) :
    ∀ o : List (String × Json D), IntegralMembers o →
    BoundedMembers (2 ^ 32 - 1) o ∧ rereadMembers env o = some o ∨
      ¬ BoundedMembers (2 ^ 32 - 1) o ∧ rereadMembers env o = none
  | [], _ => Or.inl ⟨trivial, rfl⟩
  | (k, j) :: rest, h => by
      rw [IntegralMembers] at h
      rw [BoundedMembers, rereadMembers]
      rcases reread_cases hcast j h.1 with ⟨hj, hreread⟩ | ⟨hj, hreread⟩
      · rcases rereadMembers_cases hcast rest h.2 with ⟨hrest, hrereads⟩ | ⟨hrest, hrereads⟩
        · exact Or.inl ⟨⟨hj, hrest⟩, by rw [hreread, hrereads]; rfl⟩
        · exact Or.inr ⟨fun h => hrest h.2, by rw [hreread, hrereads]; rfl⟩
      · exact Or.inr ⟨fun h => hj h.1, by rw [hreread]; rfl⟩

theorem rereadElements_cases (hcast : env.lexInt = lexicalCast) :
    ∀ a : List (Json D), IntegralElements a →
    BoundedElements (2 ^ 32 - 1) a ∧ rereadElements env a = some a ∨
      ¬ BoundedElements (2 ^ 32 - 1) a ∧ rereadElements env a = none
  | [], _ => Or.inl ⟨trivial, rfl⟩
  | j :: rest, h => by
      rw [IntegralElements] at h
      rw [BoundedElements, rereadElements]
      rcases reread_cases hcast j h.1 with ⟨hj, hreread⟩ | ⟨hj, hreread⟩
      · rcases rereadElements_cases hcast rest h.2 with ⟨hrest, hrereads⟩ | ⟨hrest, hrereads⟩
        · exact Or.inl ⟨⟨hj, hrest⟩, by rw [hreread, hrereads]; rfl⟩
        · exact Or.inr ⟨fun h => hrest h.2, by rw [hreread, hrereads]; rfl⟩
      · exact Or.inr ⟨fun h => hj h.1, by rw [hreread]; rfl⟩

end

end Reread

section Over

variable (env)

/-- The parse of a document ends as `read` says, whatever the target holds. -/
theorem parseOver_document (d : Doc) (target : Tree D) :
    (∃ j t, read env.throwing none d = some j ∧
      parseOver env (.document d) target = (.ok (), t) ∧ t.root = j) ∨
      read env.throwing none d = none ∧
        ∃ e t, parseOver env (.document d) target = (.error e, t) := by
  have hslot : Slot (Context.over target) [] := ⟨rfl, rfl⟩
  have hmeets := meets_events env.throwing_errHandler d hslot rfl
  rcases hmeets.cases with ⟨e, c, hfeed, hread, -⟩ | ⟨u, j, c, hfeed, hread, -, hdone⟩
  · refine Or.inr ⟨hread, e, c.json, ?_⟩
    rw [parseOver, parseText, hfeed]
  · refine Or.inl ⟨j, c.json, hread, ?_, hdone.root⟩
    rw [parseOver, parseText, hfeed]

/-- The parents are the containers, whatever the text is and however the parse ends. -/
theorem parented_parseOver (text : Text) (target : Tree D) :
    (parseOver env text target).2.Parented := by
  have hstart : (Context.over target).Parented True (target.parent []) := by
    refine ⟨fun p s _ hnode => ?_, rfl, fun _ => rfl⟩
    change ((undef : Json D).node (p ++ [s])).isSome = true at hnode
    rw [node_concat_scalar (fun _ => rfl)] at hnode
    cases hnode
  exact (parented_parseText text hstart (hstart.not_fillsAt _)).json

end Over

/-- The text of the tree is parsed into the target, and the same tree is there then. -/
def RoundTrips (env : Env D) (j : Json D) (target : Tree D) : Prop :=
  ∃ text t, serialize env j = .ok text ∧ parseOver env text target = (.ok (), t) ∧
    t.root = j ∧ t.Parented

section RoundTrip

variable {j : Json D} {target : Tree D}

theorem RoundTrips.bounded (hcast : env.lexInt = lexicalCast) (hordered : j.Ordered)
    (hj : j.Integral) (h : RoundTrips env j target) : j.Bounded (2 ^ 32 - 1) := by
  obtain ⟨text, t, hserialize, hparse, -, -⟩ := h
  have hread : (value? (generate env j)).bind (read env.throwing none) = reread env j :=
    read_generate hordered
  cases hgenerate : generate env j with
  | error e =>
      rw [serialize, hgenerate] at hserialize
      cases hserialize
  | ok d =>
      rw [serialize, hgenerate] at hserialize
      cases hserialize
      rw [hgenerate, value?, Option.bind_some] at hread
      rcases reread_cases hcast j hj with ⟨hbounded, -⟩ | ⟨-, hreread⟩
      · exact hbounded
      · rw [hreread] at hread
        rcases parseOver_document env d target with ⟨i, t', hi, -⟩ | ⟨-, e, t', herror⟩
        · rw [hread] at hi
          cases hi
        · have hclash := herror.symm.trans hparse
          cases hclash

theorem roundTrips_of_bounded (hcast : env.lexInt = lexicalCast) (hordered : j.Ordered)
    (hj : j.Integral) (h : j.Bounded (2 ^ 32 - 1)) : RoundTrips env j target := by
  have hread : (value? (generate env j)).bind (read env.throwing none) = reread env j :=
    read_generate hordered
  rcases reread_cases hcast j hj with ⟨-, hreread⟩ | ⟨hlong, -⟩
  · rw [hreread] at hread
    obtain ⟨d, hgenerate, hd⟩ := Option.bind_eq_some_iff.mp hread
    rcases parseOver_document env d target with ⟨i, t, hi, hparse, hroot⟩ | ⟨hnone, -⟩
    · rw [hd] at hi
      cases hi
      refine ⟨.document d, t, ?_, hparse, hroot, ?_⟩
      · rw [serialize, value?_eq_some.mp hgenerate]
        rfl
      · have hparented := parented_parseOver env (.document d) target
        rwa [hparse] at hparented
    · rw [hd] at hnone
      cases hnone
  · exact absurd h hlong

/-- A tree makes the round trip if and only if its arrays are short enough for the loop of
the generator. -/
theorem roundTrips_iff (hcast : env.lexInt = lexicalCast) (hordered : j.Ordered)
    (hj : j.Integral) : RoundTrips env j target ↔ j.Bounded (2 ^ 32 - 1) :=
  ⟨fun h => h.bounded hcast hordered hj, roundTrips_of_bounded hcast hordered hj⟩

end RoundTrip

/-- An object with an array and an integer, parsed into a node that held an array. -/
theorem roundTrips_nested :
    RoundTrips tenths (.object [("a", .array [.int (-7), .object []]), ("b", .string "x")])
      (Tree.fresh (.array [.bool true])) := by
  refine (roundTrips_iff rfl ?_ ?_).mpr ?_
  · have hkeys : "a" < "b" := by decide
    simpa [Ordered, OrderedMembers, OrderedElements, Assoc.Sorted] using hkeys
  · simp [Integral, IntegralMembers, IntegralElements, IsInt64]
  · simp [Bounded, BoundedMembers, BoundedElements]

/-- An array of `n` nulls. -/
def nulls (n : ℕ) : Json D :=
  .array (List.replicate n .undef)

theorem ordered_nulls (n : ℕ) : (nulls n : Json D).Ordered := by
  rw [nulls, Ordered, orderedElements_iff]
  intro j hj
  rw [List.eq_of_mem_replicate hj]
  trivial

theorem integral_nulls (n : ℕ) : (nulls n : Json D).Integral := by
  rw [nulls, Integral]
  induction n with
  | zero => trivial
  | succ n ih => exact ⟨trivial, ih⟩

/-- There is no text of an array with `2 ^ 32` elements. -/
theorem not_roundTrips :
    (nulls (2 ^ 32) : Json ℤ).Ordered ∧ (nulls (2 ^ 32) : Json ℤ).Integral ∧
      ¬ RoundTrips tenths (nulls (2 ^ 32)) (Tree.fresh .undef) := by
  refine ⟨ordered_nulls _, integral_nulls _, fun h => ?_⟩
  have hbounded := h.bounded rfl (ordered_nulls _) (integral_nulls _)
  rw [nulls, Bounded, List.length_replicate] at hbounded
  omega

end Json

end Gearbox
