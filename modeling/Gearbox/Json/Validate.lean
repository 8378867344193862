import Gearbox.Json.Schema

/-!
# Validation of a tree

`Json::validate` checks a tree that is already there. It goes down the tree, asks the
schema of a container for the schema of each of its children, and fills in the defaults
of an object when its members have been checked. A result of `none` is the return value
`false`, which an error handler can bring about.

The number of elements of an array is kept in an `unsigned int`.
-/

namespace Gearbox

namespace Json

open Refinement

variable {D : Type}

/-- The part of `validate` before the switch: the type is checked and fixed up. -/
def validateHead (env : Env D) (this : Path) (j : Json D) :
    SchemaM D (Option (Json D)) := do
  let s ← load this
  if ← validType (env.errHandler this) s j.type then
    return some (← typeFixup env s j)
  else
    return none

/-- The members after the assignments of `setDefaults`: each makes the key and then
copies the value. -/
def addMembers (added members : List (String × Json D)) : List (String × Json D) :=
  added.foldl (fun o m =>
    Assoc.modifyKey m.1 (fun _ => m.2) (Assoc.insertKey m.1 .undef o)) members

/-- The part of `validateObject` after the loop, for the members that the loop left. -/
def validateRest (env : Env D) (this : Path) (members : List (String × Json D)) :
    SchemaM D (Option (Json D)) := do
  let added ← setDefaults env this (.object members)
  let j : Json D := .object (addMembers added members)
  if ← validRequires (env.errHandler this) (← load this) j then
    return some j
  else
    return none

/-- The part of `validateArray` before the loop. -/
def validateSize (env : Env D) (this : Path) (size : ℕ) : SchemaM D Bool := do
  if ← validMinSize env this size then
    validMaxSize (env.errHandler this) (← load this) size
  else
    return false

mutual

/-- `Json::validate`: the tree after the validation. -/
def validate (env : Env D) (this : Path) : Json D → SchemaM D (Option (Json D))
  | .object o => do
    match ← validateHead env this (.object o) with
    | none => return none
    | some _ =>
      match ← validateMembers env this o with
      | none => return none
      | some o' => validateRest env this o'
  | .array a => do
    match ← validateHead env this (.array a) with
    | none => return none
    | some _ =>
      if ← validateSize env this a.length then
        match ← validateElements env this (toUInt32 a.length) 0 a with
        | none => return none
        | some a' => return some (.array a')
      else
        return none
  | .undef => validateHead env this .undef
  | j => do
    match ← validateHead env this j with
    | none => return none
    | some j' =>
      if ← validValue env (env.errHandler this) (← load this) j' then
        return some j'
      else
        return none

/-- The loop of `validateObject`. -/
def validateMembers (env : Env D) (this : Path) :
    List (String × Json D) → SchemaM D (Option (List (String × Json D)))
  | [] => return some []
  | (k, j) :: rest => do
    match ← getChildSchema env this k with
    | none => throw .undefined
    | some child =>
      match ← validate env child j with
      | none => return none
      | some j' =>
        match ← validateMembers env this rest with
        | none => return none
        | some rest' => return some ((k, j') :: rest')

/-- The loop of `validateArray` from the index `i` on. -/
def validateElements (env : Env D) (this : Path) (size i : ℕ) :
    List (Json D) → SchemaM D (Option (List (Json D)))
  | [] => return some []
  | j :: rest => do
    if i < size then
      match ← getChildSchemaAt env this (toInt32 i) with
      | none => throw .undefined
      | some child =>
        match ← validate env child j with
        | none => return none
        | some j' =>
          match ← validateElements env this size (i + 1) rest with
          | none => return none
          | some rest' => return some (j' :: rest')
    else
      return some (j :: rest)

end

end Json

end Gearbox
