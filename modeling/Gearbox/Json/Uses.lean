import Gearbox.Json.Documents
import Gearbox.Json.Validated

/-!
# A schema that is used more than once

A schema stays in a cache and is used by one parse or validation after another. Every
use changes the tree of the schema: it creates schemas for additional properties,
converts defaults and writes parent pointers, and a use that is rejected stops at any
point of this. The tree of a schema in use extends the tree that was parsed, and what a
use makes of a document depends only on the schema as it was parsed.
-/

namespace Gearbox

namespace Json

open Refinement

variable {D : Type}

/-- A use of a schema: the parse of a text, or the validation of a tree. -/
inductive Use (D : Type) where
  | parse (text : Text)
  | validate (j : Json D)

namespace Use

/-- The output tree, if the document is accepted, and the schema after the use. -/
def run (env : Env D) (t : Tree D) : Use D → Option (Json D) × Tree D
  | .parse text =>
    let r := Json.parse env text (some t)
    ((value? r.1).map fun _ => r.2.json.root, r.2.store)
  | .validate j =>
    let r := outcome (Json.validate env [] j) t
    ((value? r.1).join, r.2)

/-- The schema after some uses. -/
def runAll (env : Env D) (uses : List (Use D)) (t : Tree D) : Tree D :=
  uses.foldl (fun t use => (use.run env t).2) t

/-- What a schema makes of a document. -/
def meaning (env : Env D) (T : Json D) : Use D → Option (Json D)
  | .parse (.document d) => read env (some T) d
  | .parse (.broken _ _) => none
  | .validate j => conform env (whole env) T j

end Use

section Run

variable {env : Env D} {T : Json D} {t : Tree D}

theorem extends_run (hset : SetOnSchemas env T) (ht : Extends env (Tree.fresh T) t)
    (use : Use D) : Extends env t (use.run env t).2 := by
  cases use with
  | parse text => exact extends_parse hset ht text
  | validate j => exact (ends_validate hset j (holds_root ht)).1

/-- A use of a schema in use. -/
theorem run_eq_meaning (henv : ∀ p, env.errHandler p = onErrorThrow)
    (ht : Extends env (Tree.fresh T) t) (use : Use D) :
    (use.run env t).1 = use.meaning env T := by
  cases use with
  | parse text =>
      cases text with
      | document d =>
          rcases (meets_parse henv ht d).cases with
            ⟨e, c, hparse, hread, -⟩ | ⟨u, j, c, hparse, hread, -, hroot⟩
          · simp [Use.run, Use.meaning, hparse, hread, value?]
          · simp [Use.run, Use.meaning, hparse, hread, value?, hroot]
      | broken d n =>
          obtain ⟨e, he⟩ := parse_broken env d n (some t)
          simp [Use.run, Use.meaning, he, value?]
  | validate j =>
      have hmeets := meets_validate henv j (holds_root ht)
      rcases hmeets.cases with
        ⟨e, t', hvalidate, hconform, -⟩ | ⟨r, j', t', hvalidate, hconform, -, rfl⟩
      · simp only [paths, List.flatMap_nil] at hvalidate
        simp [Use.run, Use.meaning, hvalidate, hconform, value?]
      · simp only [paths, List.flatMap_nil] at hvalidate
        simp [Use.run, Use.meaning, hvalidate, hconform, value?]

theorem extends_runAll (hset : SetOnSchemas env T) (ht : Extends env (Tree.fresh T) t)
    (uses : List (Use D)) : Extends env (Tree.fresh T) (Use.runAll env uses t) := by
  induction uses generalizing t with
  | nil => exact ht
  | cons use uses ih => exact ih (ht.trans (extends_run hset ht use))

/-- What a use makes of a document does not depend on the uses before it. -/
theorem use_independent (env : Env D) (T : Json D) (uses : List (Use D)) (use : Use D) :
    (use.run env.throwing (Use.runAll env.throwing uses (Tree.fresh T))).1 =
      (use.run env.throwing (Tree.fresh T)).1 := by
  have henv := env.throwing_errHandler
  have hfresh := Extends.refl env.throwing (Tree.fresh T)
  have hused := extends_runAll (setOnSchemas_of_throwing henv T) hfresh uses
  rw [run_eq_meaning henv hused use, run_eq_meaning henv hfresh use]

end Run

end Json

end Gearbox
