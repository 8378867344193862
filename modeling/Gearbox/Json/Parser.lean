import Gearbox.Json.Schema

/-!
# The parser

`Json::Parser` builds a tree from the events of `yajl`. It has two cursors. The one into
the document is at an open container, at the node of an object key that has no value
yet, or at the root. The one into the schema is at the schema for that node. When a value
is complete, both cursors go up through the parent pointers of their nodes.

A document is what `yajl` reads from a text: a value whose numbers are still lexemes and
whose objects may have a key twice. `Doc.events` are its events.
-/

namespace Gearbox

namespace Json

open Refinement

/-- A callback of `yajl`. -/
inductive Event where
  | null
  | boolean (value : Bool)
  | number (lexeme : String)
  | string (value : String)
  | startMap
  | mapKey (key : String)
  | endMap
  | startArray
  | endArray
  deriving DecidableEq, Repr

/-- The text of a document. -/
inductive Doc where
  | null
  | boolean (value : Bool)
  | number (lexeme : String)
  | string (value : String)
  | map (members : List (String × Doc))
  | array (elements : List Doc)

namespace Doc

mutual

/-- The events that `yajl` reports for a document. -/
def events : Doc → List Event
  | .null => [.null]
  | .boolean b => [.boolean b]
  | .number lexeme => [.number lexeme]
  | .string v => [.string v]
  | .map members => .startMap :: (memberEvents members ++ [.endMap])
  | .array elements => .startArray :: (elementEvents elements ++ [.endArray])

def memberEvents : List (String × Doc) → List Event
  | [] => []
  | (k, d) :: rest => .mapKey k :: (events d ++ memberEvents rest)

def elementEvents : List Doc → List Event
  | [] => []
  | d :: rest => events d ++ elementEvents rest

end

end Doc

variable {D : Type}

/-- `Json::Parser::Context`, with the trees that its cursors point into. -/
structure Context (D : Type) where
  json : Tree D
  cursor : Option Path
  store : Tree D
  schema : Option Path

/-- A callback of the parser. -/
abbrev ParserM (D : Type) : Type → Type :=
  Code (Context D) Failure

def getJson : ParserM D Path := do
  match (← get).cursor with
  | some p => return p
  | none => throw .undefined

def setJson (p : Path) : ParserM D Unit :=
  Code.mk fun c => (.ok (), { c with cursor := some p })

def setSchema (p : Path) : ParserM D Unit :=
  Code.mk fun c => (.ok (), { c with schema := some p })

/-- The node of the document that a pointer points to. -/
def loadJson (p : Path) : ParserM D (Json D) := do
  match (← get).json.root.node p with
  | some j => return j
  | none => throw .undefined

def updateJson (f : Tree D → Tree D) : ParserM D Unit :=
  Code.mk fun c => (.ok (), { c with json := f c.json })

def setData (p : Path) (j : Json D) : ParserM D Unit :=
  updateJson fun t => t.modify p fun _ => j

/-- A call of a function of the schema. -/
def onSchema {α : Type} (m : SchemaM D α) : ParserM D α :=
  Code.mk fun c =>
    let r := outcome m c.store
    (r.1, { c with store := r.2 })

/-- A check with the schema, if there is one. -/
def withSchema (check : Path → SchemaM D Bool) : ParserM D Bool := do
  match (← get).schema with
  | some s => onSchema (check s)
  | none => return true

/-- `setSchemaUp` -/
def setSchemaUp : ParserM D Unit :=
  Code.mk fun c => (.ok (), { c with schema := c.schema.bind c.store.parent })

/-- `setJsonUp` -/
def setJsonUp : ParserM D Unit := do
  let cur ← getJson
  Code.mk fun c => (.ok (), { c with cursor := c.json.parent cur })
  setSchemaUp

def assertType (p : Path) (kind : Kind) : ParserM D Unit := do
  if (← loadJson p).type = kind then return () else throw .assertion

/-- `getObj`: in an array a new element is the place for the value. -/
def getObj (env : Env D) : ParserM D (Option Path) := do
  let cur ← getJson
  match ← loadJson cur with
  | .array a =>
    let j := cur ++ [.index a.length]
    updateJson fun t => (t.modify cur fun _ => .array (a ++ [.undef])).setParent j (some cur)
    match (← get).schema with
    | some s =>
      let newIdx := toInt32 (a.length + 1)
      if ← validMaxSize (env.errHandler s) (← onSchema (load s)) (a.length + 1) then
        match ← onSchema (getChildSchemaAt env s (toInt32 (newIdx - 1))) with
        | some child =>
          setSchema child
          setJson j
          return some j
        | none => return none
      else
        return none
    | none =>
      setJson j
      return some j
  | _ => return some cur

def parseNull (env : Env D) : ParserM D Bool := do
  match ← getObj env with
  | none => return false
  | some cur =>
    assertType cur .undef
    if ← withSchema fun s => do validType (env.errHandler s) (← load s) .undef then
      setJsonUp
      return true
    else
      return false

/-- `parse_boolean` and `parse_string` -/
def parseValue (env : Env D) (value : Json D) : ParserM D Bool := do
  match ← getObj env with
  | none => return false
  | some cur =>
    assertType cur .undef
    setData cur value
    if ← withSchema fun s => do
        let n ← load s
        both (validType (env.errHandler s) n value.type)
          (validValue env (env.errHandler s) n value)
      then
      setJsonUp
      return true
    else
      return false

/-- The value of a number: an integer if the lexeme has no dot. -/
def lexNumber (env : Env D) (lexeme : String) : Except Failure (Json D) :=
  if '.' ∈ lexeme.toList then
    match env.lexDouble lexeme with
    | some x => .ok (.double x)
    | none => .error (.std "bad lexical cast")
  else
    match env.lexInt lexeme with
    | some n => .ok (.int n)
    | none => .error (.std "bad lexical cast")

def parseNumber (env : Env D) (lexeme : String) : ParserM D Bool := do
  match ← getObj env with
  | none => return false
  | some cur =>
    let value ← lexNumber env lexeme
    setData cur value
    match (← get).schema with
    | some s =>
      let n ← onSchema (load s)
      let cont ← both (validType (env.errHandler s) n value.type)
        (validValue env (env.errHandler s) n value)
      if cont then
        setData cur (← typeFixup env n value)
        setJsonUp
        return true
      else
        return false
    | none =>
      setJsonUp
      return true

/-- `parse_start_map` and `parse_start_array` -/
def parseStart (env : Env D) (value : Json D) : ParserM D Bool := do
  match ← getObj env with
  | none => return false
  | some cur =>
    assertType cur .undef
    setData cur value
    if ← withSchema fun s => do validType (env.errHandler s) (← load s) value.type then
      setJson cur
      return true
    else
      return false

/-- The part of `parse_map_key` that enters the key into the document. -/
def newKey (cur : Path) (name : String) : ParserM D Bool := do
  if (← loadJson cur).hasKey name then
    throw (.std ("duplicate key name found: " ++ name))
  else
    updateJson fun t => t.addKey cur name
    setJson (cur ++ [.key name])
    return true

def parseMapKey (env : Env D) (name : String) : ParserM D Bool := do
  let cur ← getJson
  assertType cur .object
  match (← get).schema with
  | some s =>
    match ← onSchema (getChildSchema env s name) with
    | none => return false
    | some child =>
      setSchema child
      newKey cur name
  | none => newKey cur name

/-- The assignments of `setDefaults` to the object at `cur`. -/
def addDefaults (cur : Path) (added : List (String × Json D)) (t : Tree D) : Tree D :=
  added.foldl (fun t m => (t.addKey cur m.1).assign (cur ++ [.key m.1]) m.2) t

def parseEndMap (env : Env D) : ParserM D Bool := do
  let cur ← getJson
  assertType cur .object
  match (← get).schema with
  | some s =>
    let added ← onSchema (setDefaults env s (← loadJson cur))
    updateJson (addDefaults cur added)
    if ← validRequires (env.errHandler s) (← onSchema (load s)) (← loadJson cur) then
      setJsonUp
      return true
    else
      return false
  | none =>
    setJsonUp
    return true

def parseEndArray (env : Env D) : ParserM D Bool := do
  let cur ← getJson
  match ← loadJson cur with
  | .array a =>
    if ← withSchema fun s => validMinSize env s a.length then
      setJsonUp
      return true
    else
      return false
  | _ => throw .assertion

def callback (env : Env D) : Event → ParserM D Bool
  | .null => parseNull env
  | .boolean b => parseValue env (.bool b)
  | .number lexeme => parseNumber env lexeme
  | .string v => parseValue env (.string v)
  | .startMap => parseStart env (.object [])
  | .mapKey k => parseMapKey env k
  | .endMap => parseEndMap env
  | .startArray => parseStart env (.array [])
  | .endArray => parseEndArray env

/-- The callbacks for a sequence of events; `yajl` stops when one of them returns 0. -/
def feed (env : Env D) : List Event → ParserM D Unit
  | [] => return ()
  | e :: rest => do
    if ← callback env e then feed env rest else throw (.json "parse error")

/-- The context at the start: the target is empty, and both cursors are at the roots. -/
def Context.start (schema : Option (Tree D)) : Context D where
  json := Tree.fresh .undef
  cursor := some []
  store := schema.getD (Tree.fresh .undef)
  schema := schema.map fun _ => []

/-- A text: one that `yajl` reads to its end, or one at which it stops with an error
after some of the events of a document. -/
inductive Text where
  | document (doc : Doc)
  | broken (doc : Doc) (n : ℕ)

/-- `Json::Parser::parse`. What the target holds at the end is there also when it
throws. -/
def parseText (env : Env D) : Text → ParserM D Unit
  | .document doc => feed env doc.events
  | .broken doc n => do
    feed env (doc.events.take n)
    throw (.json "parse error")

/-- A parse of a text: how it ends, and the context that it leaves. -/
def parse (env : Env D) (text : Text) (schema : Option (Tree D)) :
    Except Failure Unit × Context D :=
  outcome (parseText env text) (Context.start schema)

end Json

end Gearbox
