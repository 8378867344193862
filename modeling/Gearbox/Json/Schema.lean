import Gearbox.Json.Tree
import Gearbox.Refinement.Meets

/-!
# Checks of a schema

The member functions of `JsonSchema`. A check that only reads its schema is a function
of the value of the schema node. It returns what the source returns: `true` if the check
passes, otherwise what the error handler of the schema decides, and with the handler of
a new node that is an exception.

The functions that change the schema work on a `Tree` and take a pointer to `this`.
`getAdditionalProperties` creates the schema `{"type":"any"}` when nothing is said about
additional properties, `setDefaults` converts a default in place, and `getChildSchema`
makes `this` the parent of the schema that it selects.

The texts of the errors are those of the source without the context of the node.
-/

namespace Gearbox

namespace Json

open Refinement

/-- What the checks take from the standard library, from `boost` and from the process. -/
structure Env (D : Type) where
  /-- the conversion of an integer to `double` -/
  ofInt : ℤ → D
  /-- the comparison `<=` of two numbers -/
  le : D → D → Bool
  /-- the comparison `==` of two numbers -/
  eq : D → D → Bool
  /-- a number written to a stream of precision 15 -/
  print : D → String
  /-- `boost::lexical_cast<int64_t>` -/
  lexInt : String → Option ℤ
  /-- `boost::lexical_cast<double>` -/
  lexDouble : String → Option D
  /-- `JsonSchema::formats_` -/
  formats : String → Option (String → Bool)
  /-- `JsonSchema::default_format` -/
  defaultFormat : String
  /-- `boost::regex_match` with the regular expression of a text, if it is one -/
  regex : String → Option (String → Bool)
  /-- the error handlers of the nodes of the schema; a node that a check creates has the
  handler of a new node -/
  errHandler : Path → ErrorHandler

variable {D : Type}

/-- The error handlers of a schema that was just parsed. -/
def Env.throwing (env : Env D) : Env D :=
  { env with errHandler := fun _ => onErrorThrow }

/-- `Json::setErrorHandler` for the node of the schema at a path. -/
def Env.setErrorHandler (env : Env D) (p : Path) (h : ErrorHandler) : Env D :=
  { env with errHandler := fun q => if q = p then h else env.errHandler q }

theorem Env.throwing_errHandler (env : Env D) (p : Path) :
    env.throwing.errHandler p = onErrorThrow := rfl

/-- The second check is made only if the first lets the validation go on. -/
def both (first second : Except Failure Bool) : Except Failure Bool := do
  if ← first then second else return false

def validMaxSize (h : ErrorHandler) (s : Json D) (size : ℕ) : Except Failure Bool :=
  match s.member "maxItems" with
  | none => .ok true
  | some m => do
    let count := toUInt32 (← m.asInt64)
    if count < size then
      h ("array size is larger than schema maximum size " ++ toString count)
    else
      return true

/-- The part of `validMinSize` about `minItems`. -/
def validMinItems (h : ErrorHandler) (s : Json D) (size : ℕ) : Except Failure Bool :=
  match s.member "minItems" with
  | none => .ok true
  | some m => do
    let count := toUInt32 (← m.asInt64)
    if size < count then
      h ("array size " ++ toString size ++ " is less than schema minimum size "
        ++ toString count)
    else
      return true

def Kind.typeToSchemaType : Kind → String
  | .undef => "null"
  | .string => "string"
  | .int => "integer"
  | .double => "number"
  | .bool => "boolean"
  | .object => "object"
  | .array => "array"

/-- One entry of a list of types. -/
def matchesType (docType type : String) : Bool :=
  type = "any" || type = docType || (type = "number" && docType = "integer")

/-- The loop of `typeListContains` over an array. -/
def anyMatches (docType : String) : List (Json D) → Except Failure Bool
  | [] => .ok false
  | t :: rest => do
    let type ← t.asString
    if matchesType docType type then return true else anyMatches docType rest

/-- `typeListContains` for the value of the keyword. The loop counts in `unsigned int`,
so that it starts again after `2 ^ 32` elements. -/
def typeListContains (docType : String) : Json D → Except Failure Bool
  | .array a => do
    if ← anyMatches docType (a.take (2 ^ 32)) then return true
    else if a.length < 2 ^ 32 then return false
    else throw .diverges
  | t => do return matchesType docType (← t.asString)

def validType (h : ErrorHandler) (s : Json D) (kind : Kind) : Except Failure Bool := do
  let docType := kind.typeToSchemaType
  let failed := h ("schema does not allow for type \"" ++ docType ++ "\"")
  match s.member "type", s.member "disallow" with
  | none, none => return true
  | some t, none => if ← typeListContains docType t then return true else failed
  | none, some d => if ← typeListContains docType d then failed else return true
  | some t, some d =>
    if ← typeListContains docType t then return true
    else if ← typeListContains docType d then failed
    else return true

/-- The conversion that `typeFixup` makes for one type. -/
def fixNumber (env : Env D) (type : String) (json : Json D) : Json D :=
  match json with
  | .int n => if type = "number" then .double (env.ofInt (toInt32 n)) else .int n
  | j => j

/-- The loop of `typeFixup` over an array. -/
def fixNumbers (env : Env D) : List (Json D) → Json D → Except Failure (Json D)
  | [], json => .ok json
  | t :: rest, json => do fixNumbers env rest (fixNumber env (← t.asString) json)

/-- `typeFixup`. The loop over an array counts in `unsigned int`. -/
def typeFixup (env : Env D) (s : Json D) (json : Json D) : Except Failure (Json D) :=
  match s.member "type" with
  | none => .ok json
  | some (.array a) => do
    let json' ← fixNumbers env (a.take (2 ^ 32)) json
    if a.length < 2 ^ 32 then return json' else throw .diverges
  | some t => do return fixNumber env (← t.asString) json

section Value

variable (env : Env D) (h : ErrorHandler) (s : Json D)

/-- A scalar written to a stream of precision 15. -/
def print : Json D → String
  | .bool b => if b then "true" else "false"
  | .int n => toString n
  | .double x => env.print x
  | .string v => v
  | _ => "null"

/-- The comparison `<=` of two numbers, an integer and a `double` as `double`. Other
values are not compared. -/
def numberLe : Json D → Json D → Bool
  | .int m, .int n => m ≤ n
  | .int m, .double y => env.le (env.ofInt m) y
  | .double x, .int n => env.le x (env.ofInt n)
  | .double x, .double y => env.le x y
  | _, _ => false

/-- `minimum` -/
def validMinimum (json : Json D) : Except Failure Bool :=
  match s.member "minimum" with
  | some (.int m) => check (.int m)
  | some (.double m) => check (.double m)
  | _ => .ok true
where
  check (m : Json D) : Except Failure Bool :=
    if numberLe env m json then .ok true
    else h ("value " ++ print env json ++ " is less than schema minimum value "
      ++ print env m)

/-- `maximum` -/
def validMaximum (json : Json D) : Except Failure Bool :=
  match s.member "maximum" with
  | some (.int m) => check (.int m)
  | some (.double m) => check (.double m)
  | _ => .ok true
where
  check (m : Json D) : Except Failure Bool :=
    if numberLe env json m then .ok true
    else h ("value " ++ print env json ++ " is larger than schema maximum value "
      ++ print env m)

/-- The number of characters after the first dot, or of all characters if there is no
dot. -/
def decimals (text : String) : ℕ :=
  match text.toList.idxOf? '.' with
  | some i => (text.length - i - 1) % 2 ^ 32
  | none => text.length % 2 ^ 32

/-- `maxDecimal` -/
def validMaxDecimal (json : Json D) : Except Failure Bool :=
  match json, s.member "maxDecimal" with
  | .double x, some m => do
    let max := toUInt64 (← m.asInt64)
    if max < decimals (env.print x) then
      h ("value " ++ env.print x ++ " has " ++ toString (decimals (env.print x))
        ++ " decimal places, but the schema has specified maximum of " ++ toString max
        ++ " decimal places")
    else
      return true
  | _, _ => .ok true

/-- `minLength`; the size of a string is the number of its bytes. -/
def validMinLength (json : Json D) : Except Failure Bool :=
  match json, s.member "minLength" with
  | .string v, some m => do
    let minLen := toUInt64 (← m.asInt64)
    if v.utf8ByteSize < minLen then
      h ("string length " ++ toString v.utf8ByteSize
        ++ " is less than schema minimum length " ++ toString minLen)
    else
      return true
  | _, _ => .ok true

/-- `maxLength` -/
def validMaxLength (json : Json D) : Except Failure Bool :=
  match json, s.member "maxLength" with
  | .string v, some m => do
    let maxLen := toUInt64 (← m.asInt64)
    if maxLen < v.utf8ByteSize then
      h ("string length " ++ toString v.utf8ByteSize
        ++ " is larger than schema maximum length " ++ toString maxLen)
    else
      return true
  | _, _ => .ok true

/-- The format of a schema, or the default format if it has none. -/
def formatOf : Except Failure String :=
  match s.member "format" with
  | some f => f.asString
  | none => .ok env.defaultFormat

/-- `format` -/
def validFormat (json : Json D) : Except Failure Bool :=
  match json with
  | .string v => do
    let format ← formatOf env s
    if format = "" then return true
    match env.formats format with
    | none => return true
    | some checker =>
      if checker v then return true
      else h ("value does not match required schema format " ++ format)
  | _ => .ok true

/-- `pattern` -/
def validPattern (json : Json D) : Except Failure Bool :=
  match json, s.member "pattern" with
  | .string v, some p => do
    let pattern ← p.asString
    match env.regex pattern with
    | none => throw (.std "regex_error")
    | some rx =>
      if rx v then return true
      else h ("value does not match schema pattern \"" ++ pattern ++ "\"")
  | _, _ => .ok true

/-- The comparison of a scalar with an entry of `enum`. -/
def enumMatches : Json D → Json D → Bool
  | .int m, .int n => m = n
  | .double x, .double y => env.eq x y
  | .bool a, .bool b => a = b
  | .string v, .string w => v = w
  | _, _ => false

/-- `enum`; the loop goes up to `length`. -/
def validEnum (json : Json D) : Except Failure Bool :=
  match s.member "enum" with
  | none => .ok true
  | some e =>
    let entries : List (Json D) :=
      match e with
      | .array a => a.take e.length.toNat
      | _ => []
    if entries.any fun v => enumMatches env v json then .ok true
    else h "value is not valid in schema enum"

def validValue (json : Json D) : Except Failure Bool :=
  both (validMinimum env h s json) <|
  both (validMaximum env h s json) <|
  both (validMaxDecimal env h s json) <|
  both (validMinLength h s json) <|
  both (validMaxLength h s json) <|
  both (validFormat env h s json) <|
  both (validPattern env h s json) <|
  validEnum env h s json

end Value

/-- One of the properties that a property requires. -/
def validRequire (h : ErrorHandler) (object : Json D) (k req : String) :
    Except Failure Bool :=
  if object.hasKey req then .ok true
  else h ("property \"" ++ k ++ "\" requires additional property \"" ++ req
    ++ "\" to be set according to schema")

/-- The keyword `optional` of a schema is set. -/
def isOptional (s : Json D) : Except Failure Bool :=
  match s.member "optional" with
  | some o => o.asBool
  | none => .ok false

/-- What `validRequires` checks for the property `k` with the schema `s`. -/
def validRequired (h : ErrorHandler) (object s : Json D) (k : String) :
    Except Failure Bool := do
  let optional ← s.isOptional
  let requires : Except Failure Bool :=
    match s.member "requires" with
    | some (.string req) => validRequire h object k req
    | some (.array a) =>
      (a.take (toInt32 a.length).toNat).allM fun r => do
        validRequire h object k (← r.asString)
    | _ => .ok true
  if optional then
    if object.hasKey k then requires else return true
  else if object.hasKey k then return true
  else h ("non-optional property \"" ++ k ++ "\" is missing")

/-- The names of the properties of a schema, in the order of the loops over them. -/
def properties (s : Json D) : Except Failure (List String) :=
  match s.member "properties" with
  | none => .ok []
  | some p => do return (← p.asObject).map Prod.fst

/-- The schema of a property. -/
def property (s : Json D) (k : String) : Option (Json D) :=
  (s.member "properties").bind fun p => p.member k

/-- The body of the loop for the property `k` of the schema `s`. -/
def validProperty (h : ErrorHandler) (s object : Json D) (k : String) :
    Except Failure Bool :=
  match s.property k with
  | some p => validRequired h object p k
  | none => .error .undefined

def validRequires (h : ErrorHandler) (s object : Json D) : Except Failure Bool := do
  (← s.properties).allM (validProperty h s object)

/-- A function that may change the schema. -/
abbrev SchemaM (D : Type) : Type → Type :=
  Code (Tree D) Failure

/-- Follows a pointer. -/
def load (p : Path) : SchemaM D (Json D) :=
  Code.mk fun t =>
    match t.root.node p with
    | some j => (.ok j, t)
    | none => (.error .undefined, t)

def update (f : Tree D → Tree D) : SchemaM D Unit :=
  Code.mk fun t => (.ok (), f t)

/-- `JsonSchema::operator[]` for a key: the key is added if it is not there. -/
def index (env : Env D) (this : Path) (k : String) : SchemaM D Path := do
  match ← load this with
  | .object o =>
    if (o.lookup k).isSome then
      return this ++ [.key k]
    else
      update fun t => t.addKey this k
      return this ++ [.key k]
  | .undef =>
    update fun t => (t.modify this fun _ => .object []).addKey this k
    return this ++ [.key k]
  | j =>
    let _ ← env.errHandler this
      ("cannot access object key \"" ++ k ++ "\" on type " ++ j.type.typeToName)
    return this

/-- The schema `{"type":"any"}`. -/
def anySchema : Json D :=
  .object [("type", .string "any")]

/-- `Json::parse` of the text `{"type":"any"}`. -/
def parseAny (p : Path) : SchemaM D Unit :=
  update fun t =>
    (t.modify p fun _ => anySchema).setParent (p ++ [.key "type"]) (some p)

def getAdditionalProperties (env : Env D) (this : Path) : SchemaM D (Option Path) := do
  match (← load this).member "additionalProperties" with
  | some (.bool true) => return some (← create)
  | some (.object _) => return some (this ++ [.key "additionalProperties"])
  | some _ => return none
  | none => return some (← create)
where
  create : SchemaM D Path := do
    parseAny (← index env this "additionalProperties")
    index env this "additionalProperties"

def validMinSize (env : Env D) (this : Path) (size : ℕ) : SchemaM D Bool := do
  let s ← load this
  if ← validMinItems (env.errHandler this) s size then
    match s.member "items" with
    | some (.array items) =>
      match ← getAdditionalProperties env this with
      | some _ => return true
      | none =>
        if items.length ≠ size then
          env.errHandler this ("array size " ++ toString size
            ++ " does not match schema required size of tuple type "
            ++ toString items.length)
        else
          return true
    | _ => return true
  else
    return false

/-- The body of the loop of `setDefaults`: what is added to the object for a property. -/
def setDefault (env : Env D) (this : Path) (object : Json D) (k : String) :
    SchemaM D (List (String × Json D)) := do
  let p := this ++ [.key "properties", .key k]
  let s ← load p
  match s.member "default" with
  | some d =>
    if object.hasKey k then
      return []
    else
      let d' ← typeFixup env s d
      update fun t => t.modify (p ++ [.key "default"]) fun _ => d'
      return [(k, ← d'.copy)]
  | none => return []

def setDefaultsLoop (env : Env D) (this : Path) (object : Json D) :
    List String → SchemaM D (List (String × Json D))
  | [] => return []
  | k :: rest => do
    return (← setDefault env this object k) ++ (← setDefaultsLoop env this object rest)

/-- `setDefaults`: the members that it adds to the object. -/
def setDefaults (env : Env D) (this : Path) (object : Json D) :
    SchemaM D (List (String × Json D)) := do
  setDefaultsLoop env this object (← (← load this).properties)

/-- The pointer to the schema for the element at an index of an array. -/
def getChildSchemaAt (env : Env D) (this : Path) (idx : ℤ) :
    SchemaM D (Option Path) := do
  let addProp ← getAdditionalProperties env this
  match (← load this).member "items" with
  | some items =>
    if 0 ≤ items.length then
      if items.length ≤ idx then
        match addProp with
        | some p => return some p
        | none =>
          let _ ← env.errHandler this
            ("out of bounds: schema does not allow for elements at index "
              ++ toString idx)
          return none
      else if idx < 0 then
        throw .undefined
      else
        let child := this ++ [.key "items", .index idx.toNat]
        update fun t => t.setParent child (some this)
        return some child
    else
      return some (this ++ [.key "items"])
  | none =>
    match addProp with
    | some p => return some p
    | none =>
      let _ ← env.errHandler this
        "out of bounds: schema does not allow for any elements in array"
      return none

/-- The pointer to the schema for the value of a key of an object. -/
def getChildSchema (env : Env D) (this : Path) (key : String) :
    SchemaM D (Option Path) := do
  let addProp ← getAdditionalProperties env this
  match (← load this).member "properties" with
  | some p =>
    if p.hasKey key then
      let child := this ++ [.key "properties", .key key]
      update fun t => t.setParent child (some this)
      return some child
    else
      match addProp with
      | some p => return some p
      | none =>
        let _ ← env.errHandler this
          ("invalid property \"" ++ key
            ++ "\": schema does not allow for this property")
        return none
  | none =>
    match addProp with
    | some p => return some p
    | none =>
      let _ ← env.errHandler this
        ("invalid property \"" ++ key ++ "\": schema allows for no properties")
      return none

end Json

end Gearbox
