import Gearbox.Json.Parser
import Gearbox.Json.Validate
import Gearbox.Refinement.Meets

/-!
# What a schema means

A schema is read here as a value that never changes. A schema selects one of its
sub-schemas for every child of a container (`selectKey`, `selectIndex`), and a schema
that says nothing about additional properties has the sub-schema `{"type":"any"}` for
them, whether or not this is written in the tree. `conform` is the value that a schema
makes of a value. It has two orders of work, that of the parser and that of
`Json::validate`, which differ in the point at which a number is converted, in checks
that one of them leaves out, and in the number of elements of an array that are looked
at.

`read` is what the parser makes of a document, with a schema or without one.
-/

namespace Gearbox

namespace Json

open Refinement

variable {D : Type}

/-- How a schema selects a sub-schema. -/
inductive Sel where
  | property (k : String)
  | items
  | item (i : ℕ)
  | additional
  deriving DecidableEq, Repr

/-- Where the sub-schema is in the tree. -/
def Sel.path : Sel → Path
  | .property k => [.key "properties", .key k]
  | .items => [.key "items"]
  | .item i => [.key "items", .index i]
  | .additional => [.key "additionalProperties"]

/-- Where a sub-schema of a sub-schema is in the tree. -/
def paths (sels : List Sel) : Path :=
  sels.flatMap Sel.path

/-- The value of `items`, if it is a list of schemas. -/
def tuple (s : Json D) : Option (Json D) :=
  (s.member "items").filter fun j => 0 ≤ j.length

def child (s : Json D) : Sel → Option (Json D)
  | .property k => s.property k
  | .items => (s.member "items").filter fun j => j.length < 0
  | .item i => s.tuple.bind fun j => j.step (.index i)
  | .additional =>
    match s with
    | .undef => some anySchema
    | .object o =>
      match o.lookup "additionalProperties" with
      | none => some anySchema
      | some (.bool true) => some anySchema
      | some (.object o) => some (.object o)
      | some _ => none
    | _ => none

def sub (s : Json D) : List Sel → Option (Json D)
  | [] => some s
  | sel :: sels => (s.child sel).bind fun c => c.sub sels

/-- The schema for additional properties, if they are allowed. -/
def selectAdditional (s : Json D) : Option Sel :=
  (s.child .additional).map fun _ => .additional

/-- The sub-schema for the value of a key. -/
def selectKey (s : Json D) (k : String) : Option Sel :=
  if (s.property k).isSome then some (.property k) else s.selectAdditional

/-- The sub-schema for the element at an index. -/
def selectIndex (s : Json D) (idx : ℤ) : Option Sel :=
  match s.member "items" with
  | some j =>
    if 0 ≤ j.length then
      if j.length ≤ idx then s.selectAdditional
      else if idx < 0 then none
      else some (.item idx.toNat)
    else
      some .items
  | none => s.selectAdditional

def childKey (s : Json D) (k : String) : Option (Json D) :=
  (s.selectKey k).bind s.child

def childIndex (s : Json D) (i : ℕ) : Option (Json D) :=
  (s.selectIndex (toInt32 i)).bind s.child

section Typed

/-- A string or a list of strings. -/
def IsTypeList (t : Json D) : Prop :=
  t.type = .string ∨ ∃ a, t = .array a ∧ ∀ x ∈ a, x.type = .string

/-- The keywords of a schema have the types that the code reads. -/
structure Typed (s : Json D) : Prop where
  object : s.type = .object
  typeLists : ∀ k ∈ ["type", "disallow", "requires"], ∀ t, s.member k = some t →
    IsTypeList t
  integers : ∀ k ∈ ["minItems", "maxItems", "minLength", "maxLength", "maxDecimal"],
    ∀ t, s.member k = some t → t.type = .int
  numbers : ∀ k ∈ ["minimum", "maximum"], ∀ t, s.member k = some t →
    t.type = .int ∨ t.type = .double
  strings : ∀ k ∈ ["format", "pattern"], ∀ t, s.member k = some t → t.type = .string
  enum : ∀ t, s.member "enum" = some t → t.type = .array
  optional : ∀ t, s.member "optional" = some t → t.type = .bool
  properties : ∀ t, s.member "properties" = some t → t.type = .object
  items : ∀ t, s.member "items" = some t → t.type = .object ∨ t.type = .array
  additional : ∀ t, s.member "additionalProperties" = some t →
    t.type = .bool ∨ t.type = .object

/-- Every schema that can be selected has keywords of the right types. -/
def WellTyped (s : Json D) : Prop :=
  ∀ sels c, s.sub sels = some c → Typed c

/-- The keyword `type` neither is nor contains `"number"`. -/
def NotNumber (s : Json D) : Prop :=
  ∀ t, s.member "type" = some t →
    t ≠ .string "number" ∧ ∀ a, t = .array a → .string "number" ∉ a

/-- No schema that can be selected has the type `"number"`. -/
def NumberFree (s : Json D) : Prop :=
  ∀ sels c, s.sub sels = some c → NotNumber c

/-- A list of types is short enough for the loops over it. -/
def ShortList (s : Json D) : Prop :=
  ∀ a, s.member "type" = some (.array a) → a.length < 2 ^ 32

/-- No schema that can be selected has a list of more than `n` types. -/
def ShortTypes (n : ℕ) (s : Json D) : Prop :=
  ∀ sels c, s.sub sels = some c → ∀ a, c.member "type" = some (.array a) → a.length ≤ n

end Typed

section Bounded

mutual

/-- No array has more than `n` elements. -/
def Bounded (n : ℕ) : Json D → Prop
  | .object o => BoundedMembers n o
  | .array a => a.length ≤ n ∧ BoundedElements n a
  | _ => True

def BoundedMembers (n : ℕ) : List (String × Json D) → Prop
  | [] => True
  | (_, j) :: rest => Bounded n j ∧ BoundedMembers n rest

def BoundedElements (n : ℕ) : List (Json D) → Prop
  | [] => True
  | j :: rest => Bounded n j ∧ BoundedElements n rest

end

mutual

/-- No array of the document has more than `n` elements. -/
def Doc.Bounded (n : ℕ) : Doc → Prop
  | .map members => Doc.BoundedMembers n members
  | .array elements => elements.length ≤ n ∧ Doc.BoundedElements n elements
  | _ => True

def Doc.BoundedMembers (n : ℕ) : List (String × Doc) → Prop
  | [] => True
  | (_, d) :: rest => Doc.Bounded n d ∧ Doc.BoundedMembers n rest

def Doc.BoundedElements (n : ℕ) : List Doc → Prop
  | [] => True
  | d :: rest => Doc.Bounded n d ∧ Doc.BoundedElements n rest

end

end Bounded

section Conform

variable (env : Env D)

/-- The value of a scalar in the order of the parser. -/
def streamScalar (s : Json D) : Json D → Option (Json D)
  | .undef => do
    accepts (validType onErrorThrow s .undef)
    return .undef
  | .int n => do
    accepts (both (validType onErrorThrow s .int) (validValue env onErrorThrow s (.int n)))
    value? (typeFixup env s (.int n))
  | .double x => do
    accepts (both (validType onErrorThrow s .double)
      (validValue env onErrorThrow s (.double x)))
    value? (typeFixup env s (.double x))
  | j => do
    accepts (both (validType onErrorThrow s j.type) (validValue env onErrorThrow s j))
    return j

/-- The value of a scalar in the order of `Json::validate`. -/
def wholeScalar (s : Json D) : Json D → Option (Json D)
  | .undef => do
    accepts (validType onErrorThrow s .undef)
    value? (typeFixup env s .undef)
  | j => do
    accepts (validType onErrorThrow s j.type)
    let j' ← value? (typeFixup env s j)
    accepts (validValue env onErrorThrow s j')
    return j'

/-- The size of an array is at least what the schema requires. -/
def minSize (s : Json D) (size : ℕ) : Option Unit := do
  accepts (validMinItems onErrorThrow s size)
  match s.member "items" with
  | some (.array items) =>
    if (s.child .additional).isSome || items.length = size then return () else none
  | _ => return ()

def maxSize (s : Json D) (size : ℕ) : Option Unit :=
  accepts (validMaxSize onErrorThrow s size)

/-- The order of the work: the value of a scalar, the check of the type of a container,
the check of the size of an array, and the number of elements that are looked at in an
array of a given size. -/
structure Order (D : Type) where
  scalar : Json D → Json D → Option (Json D)
  container : Json D → Kind → Option Unit
  maxSize : Json D → ℕ → Option Unit
  count : ℕ → ℕ

/-- The order of the parser, which checks the size of an array when it adds an element. -/
def streaming : Order D where
  scalar := streamScalar env
  container := fun s kind => accepts (validType onErrorThrow s kind)
  maxSize := fun s size => if size = 0 then some () else s.maxSize size
  count := id

/-- The order of `Json::validate`, which reads the type of a container a second time in
`typeFixup`. -/
def whole : Order D where
  scalar := wholeScalar env
  container := fun s kind => do
    accepts (validType onErrorThrow s kind)
    let _ ← value? (typeFixup env s .undef)
    return ()
  maxSize := fun s size => s.maxSize size
  count := fun size => toUInt32 size

/-- What is added to an object for a property. -/
def defaultOf (s object : Json D) (k : String) : Option (List (String × Json D)) := do
  let p ← s.property k
  match p.member "default" with
  | some d =>
    if object.hasKey k then return []
    else
      let d' ← value? (typeFixup env p d)
      return [(k, ← value? d'.copy)]
  | none => return []

def defaultsLoop (s object : Json D) : List String → Option (List (String × Json D))
  | [] => return []
  | k :: rest => do return (← defaultOf env s object k) ++ (← defaultsLoop s object rest)

/-- The object with its defaults, if all that is required is there. -/
def complete (s : Json D) (members : List (String × Json D)) : Option (Json D) := do
  let names ← value? s.properties
  let added ← defaultsLoop env s (.object members) names
  accepts (validRequires onErrorThrow s (.object (addMembers added members)))
  return .object (addMembers added members)

mutual

/-- The value that a schema makes of a value. -/
def conform (order : Order D) (s : Json D) : Json D → Option (Json D)
  | .object o => do
    order.container s .object
    let o' ← conformMembers order s o
    complete env s o'
  | .array a => do
    order.container s .array
    minSize s a.length
    order.maxSize s a.length
    let a' ← conformElements order s (order.count a.length) 0 a
    return .array a'
  | j => order.scalar s j

def conformMembers (order : Order D) (s : Json D) :
    List (String × Json D) → Option (List (String × Json D))
  | [] => return []
  | (k, j) :: rest => do
    let c ← s.childKey k
    let j' ← conform order c j
    let rest' ← conformMembers order s rest
    return (k, j') :: rest'

def conformElements (order : Order D) (s : Json D) (size i : ℕ) :
    List (Json D) → Option (List (Json D))
  | [] => return []
  | j :: rest =>
    if i < size then do
      let c ← s.childIndex i
      let j' ← conform order c j
      let rest' ← conformElements order s size (i + 1) rest
      return j' :: rest'
    else
      return j :: rest

end

/-- A requirement of the schema, if there is one. -/
def require (s : Option (Json D)) (check : Json D → Option Unit) : Option Unit :=
  match s with
  | some s => check s
  | none => some ()

/-- The sub-schema, if there is a schema. -/
def descend (s : Option (Json D)) (select : Json D → Option (Json D)) :
    Option (Option (Json D)) :=
  match s with
  | some s => (select s).map some
  | none => some none

def readScalar (s : Option (Json D)) (j : Json D) : Option (Json D) :=
  match s with
  | some s => streamScalar env s j
  | none => some j

def readObject (s : Option (Json D)) (members : List (String × Json D)) :
    Option (Json D) :=
  match s with
  | some s => complete env s members
  | none => some (.object members)

mutual

/-- The value that the parser makes of a document. -/
def read (s : Option (Json D)) : Doc → Option (Json D)
  | .null => readScalar env s .undef
  | .boolean b => readScalar env s (.bool b)
  | .number lexeme => do readScalar env s (← value? (lexNumber env lexeme))
  | .string v => readScalar env s (.string v)
  | .map members => do
    require s fun s => accepts (validType onErrorThrow s .object)
    let o ← readMembers s [] members
    readObject env s o
  | .array elements => do
    require s fun s => accepts (validType onErrorThrow s .array)
    let a ← readElements s [] elements
    require s fun s => minSize s a.length
    return .array a

/-- The members after `o`. -/
def readMembers (s : Option (Json D)) (o : List (String × Json D)) :
    List (String × Doc) → Option (List (String × Json D))
  | [] => return o
  | (k, d) :: rest => do
    let c ← descend s fun s => s.childKey k
    if (o.lookup k).isSome then none
    else
      let j ← read c d
      readMembers s (Assoc.insertKey k j o) rest

/-- The elements after `a`. -/
def readElements (s : Option (Json D)) (a : List (Json D)) :
    List Doc → Option (List (Json D))
  | [] => return a
  | d :: rest => do
    require s fun s => maxSize s (a.length + 1)
    let c ← descend s fun s => s.childIndex a.length
    let j ← read c d
    readElements s (a ++ [j]) rest

end

end Conform

end Json

end Gearbox
