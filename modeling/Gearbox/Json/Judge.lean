import Gearbox.Json.Checks
import Gearbox.Refinement.Verdict

/-!
# The verdict of a schema

Every node of a schema has an error handler, which is called where a check fails. It
throws, or it returns `true` and the work goes on as if the check had passed, or it returns
`false` and the work ends. `judge` is the verdict on a value in the order of
`Json::validate`, and `receive` the verdict on a document in the order of the parser. A child
for which there is no schema is `missing` once the handler has returned, whatever it
returned.
-/

namespace Gearbox

namespace Json

open Refinement Refinement.Verdict

variable {D : Type}

/-- A sub-schema and how it is selected from the schema. -/
structure Place (D : Type) where
  sels : List Sel
  schema : Json D

namespace Place

/-- The error handler of the sub-schema. -/
def handler (env : Env D) (place : Place D) : ErrorHandler :=
  env.errHandler (paths place.sels)

/-- A sub-schema of the sub-schema. -/
def enter (place : Place D) (sel : Sel) : Verdict (Place D) :=
  ofOption ((place.schema.child sel).map fun c => ⟨place.sels ++ [sel], c⟩)

end Place

/-- An error handler that may return was set on a schema, which is an object or null. At
any other value `operator[]` calls the handler and goes on with that value. -/
def SetOnSchemas (env : Env D) (T : Json D) : Prop :=
  ∀ sels s, T.sub sels = some s → s.type ≠ .object → s.type ≠ .undef →
    ∀ m, ∃ e, env.errHandler (paths sels) m = .error e

theorem setOnSchemas_of_throwing {env : Env D}
    (henv : ∀ p, env.errHandler p = onErrorThrow) (T : Json D) : SetOnSchemas env T := by
  intro sels s _ _ _ m
  exact ⟨_, congrFun (henv (paths sels)) m⟩

theorem sub_anySchema {sels : List Sel} {s : Json D}
    (h : (anySchema : Json D).sub sels = some s) : s = anySchema := by
  induction sels with
  | nil =>
      cases h
      rfl
  | cons sel sels ih =>
      cases sel with
      | additional => exact ih h
      | _ => cases h

/-- The schema that says nothing. -/
theorem setOnSchemas_undef (env : Env D) : SetOnSchemas env (.undef : Json D) := by
  intro sels s hs hobject hundef
  cases sels with
  | nil =>
      cases hs
      exact absurd rfl hundef
  | cons sel sels =>
      cases sel with
      | additional => exact absurd (congrArg type (sub_anySchema hs)) hobject
      | _ => cases hs

section Verdicts

variable (env : Env D) (place : Place D)

/-- There is no schema for a child, and the handler was called. -/
def absent (message : String) : Verdict (Place D) :=
  match place.handler env message with
  | .ok _ => missing
  | .error _ => raised

/-- The schema for additional properties. -/
def judgeAdditional (message : String) : Verdict (Place D) :=
  if (place.schema.child .additional).isSome then place.enter .additional
  else absent env place message

/-- The schema for the value of a key. -/
def judgeKey (k : String) : Verdict (Place D) :=
  if (place.schema.property k).isSome then
    place.enter (.property k)
  else if (place.schema.member "properties").isSome then
    judgeAdditional env place
      ("invalid property \"" ++ k ++ "\": schema does not allow for this property")
  else
    judgeAdditional env place
      ("invalid property \"" ++ k ++ "\": schema allows for no properties")

/-- The schema for the element at an index. -/
def judgeIndex (idx : ℤ) : Verdict (Place D) :=
  match place.schema.member "items" with
  | some j =>
    if 0 ≤ j.length then
      if j.length ≤ idx then
        judgeAdditional env place
          ("out of bounds: schema does not allow for elements at index " ++ toString idx)
      else if idx < 0 then
        raised
      else
        place.enter (.item idx.toNat)
    else
      place.enter .items
  | none =>
    judgeAdditional env place "out of bounds: schema does not allow for any elements in array"

/-- A child has a schema or it has none. -/
theorem Place.enter_ne_failed (sel : Sel) : place.enter sel ≠ failed := by
  rw [Place.enter]
  cases place.schema.child sel <;> simp [ofOption]

theorem judgeAdditional_ne_failed (message : String) :
    judgeAdditional env place message ≠ failed := by
  rw [judgeAdditional, absent]
  split
  · exact place.enter_ne_failed .additional
  · split <;> simp

theorem judgeKey_ne_failed (k : String) : judgeKey env place k ≠ failed := by
  rw [judgeKey]
  split
  · exact place.enter_ne_failed (.property k)
  · split
    · exact judgeAdditional_ne_failed env place _
    · exact judgeAdditional_ne_failed env place _

theorem judgeIndex_ne_failed (idx : ℤ) : judgeIndex env place idx ≠ failed := by
  rw [judgeIndex]
  split
  · split
    · split
      · exact judgeAdditional_ne_failed env place _
      · split
        · simp
        · exact place.enter_ne_failed (.item idx.toNat)
    · exact place.enter_ne_failed .items
  · exact judgeAdditional_ne_failed env place _

def judgeType (kind : Kind) : Verdict Unit :=
  ofCheck (validType (place.handler env) place.schema kind)

/-- The value of a scalar or the type of a container, before the switch of `validate`. -/
def judgeHead (j : Json D) : Verdict (Json D) := do
  judgeType env place j.type
  ofResult (typeFixup env place.schema j)

/-- A scalar that is not null. -/
def judgeScalar (j : Json D) : Verdict (Json D) := do
  let j' ← judgeHead env place j
  ofCheck (validValue env (place.handler env) place.schema j')
  return j'

def judgeMinSize (size : ℕ) : Verdict Unit := do
  ofCheck (validMinItems (place.handler env) place.schema size)
  match place.schema.member "items" with
  | some (.array items) =>
    if (place.schema.child .additional).isSome || items.length = size then
      return ()
    else
      ofCheck (place.handler env ("array size " ++ toString size
        ++ " does not match schema required size of tuple type " ++ toString items.length))
  | _ => return ()

def judgeMaxSize (size : ℕ) : Verdict Unit :=
  ofCheck (validMaxSize (place.handler env) place.schema size)

/-- The end of an object: the defaults and what is required. -/
def judgeRest (members : List (String × Json D)) : Verdict (Json D) := do
  let names ← ofResult place.schema.properties
  let added ← ofOption (defaultsLoop env place.schema (.object members) names)
  ofCheck (validRequires (place.handler env) place.schema
    (.object (addMembers added members)))
  return .object (addMembers added members)

end Verdicts

section Judge

variable (env : Env D)

mutual

/-- The verdict on a value, in the order of `Json::validate`. -/
def judge (place : Place D) : Json D → Verdict (Json D)
  | .object o => do
    let _ ← judgeHead env place (.object o)
    let o' ← judgeMembers place o
    judgeRest env place o'
  | .array a => do
    let _ ← judgeHead env place (.array a)
    judgeMinSize env place a.length
    judgeMaxSize env place a.length
    let a' ← judgeElements place (toUInt32 a.length) 0 a
    return .array a'
  | .undef => judgeHead env place .undef
  | j => judgeScalar env place j

def judgeMembers (place : Place D) :
    List (String × Json D) → Verdict (List (String × Json D))
  | [] => return []
  | (k, j) :: rest => do
    let child ← judgeKey env place k
    let j' ← judge child j
    let rest' ← judgeMembers place rest
    return (k, j') :: rest'

def judgeElements (place : Place D) (size i : ℕ) : List (Json D) → Verdict (List (Json D))
  | [] => return []
  | j :: rest =>
    if i < size then do
      let child ← judgeIndex env place (toInt32 i)
      let j' ← judge child j
      let rest' ← judgeElements place size (i + 1) rest
      return j' :: rest'
    else
      return j :: rest

end

end Judge

section Receive

variable (env : Env D)

/-- A check with the schema, if there is one. -/
def demand (place : Option (Place D)) (check : Place D → Verdict Unit) : Verdict Unit :=
  match place with
  | some place => check place
  | none => return ()

/-- The sub-schema, if there is a schema. -/
def pursue (place : Option (Place D)) (select : Place D → Verdict (Place D)) :
    Verdict (Option (Place D)) :=
  match place with
  | some place => do return some (← select place)
  | none => return none

/-- The checks of a scalar in the order of the parser. -/
def judgeValue (place : Place D) (j : Json D) : Verdict Unit :=
  ofCheck (both (validType (place.handler env) place.schema j.type)
    (validValue env (place.handler env) place.schema j))

/-- A number, which is converted when it has been checked. -/
def receiveNumber (place : Option (Place D)) (j : Json D) : Verdict (Json D) :=
  match place with
  | some place => do
    judgeValue env place j
    ofResult (typeFixup env place.schema j)
  | none => return j

/-- A boolean or a string. -/
def receiveValue (place : Option (Place D)) (j : Json D) : Verdict (Json D) := do
  demand place fun place => judgeValue env place j
  return j

def receiveObject (place : Option (Place D)) (members : List (String × Json D)) :
    Verdict (Json D) :=
  match place with
  | some place => judgeRest env place members
  | none => return .object members

mutual

/-- The verdict on a document, in the order of the parser. -/
def receive (place : Option (Place D)) : Doc → Verdict (Json D)
  | .null => do
    demand place fun place => judgeType env place .undef
    return .undef
  | .boolean b => receiveValue env place (.bool b)
  | .number lexeme => do receiveNumber env place (← ofResult (lexNumber env lexeme))
  | .string v => receiveValue env place (.string v)
  | .map members => do
    demand place fun place => judgeType env place .object
    let o ← receiveMembers place [] members
    receiveObject env place o
  | .array elements => do
    demand place fun place => judgeType env place .array
    let a ← receiveElements place [] elements
    demand place fun place => judgeMinSize env place a.length
    return .array a

/-- The members after `o`. -/
def receiveMembers (place : Option (Place D)) (o : List (String × Json D)) :
    List (String × Doc) → Verdict (List (String × Json D))
  | [] => return o
  | (k, d) :: rest => do
    let child ← pursue place fun place => judgeKey env place k
    if (o.lookup k).isSome then raised
    else
      let j ← receive child d
      receiveMembers place (Assoc.insertKey k j o) rest

/-- The elements after `a`. -/
def receiveElements (place : Option (Place D)) (a : List (Json D)) :
    List Doc → Verdict (List (Json D))
  | [] => return a
  | d :: rest => do
    demand place fun place => judgeMaxSize env place (a.length + 1)
    let child ← pursue place fun place => judgeIndex env place (toInt32 a.length)
    let j ← receive child d
    receiveElements place (a ++ [j]) rest

end

end Receive

end Json

end Gearbox
