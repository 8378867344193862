import Mathlib.Algebra.Order.Ring.Int
import Mathlib.Tactic.Common
import Gearbox.Assoc.Ordered

/-!
# JSON trees

A `Json` of the source is a node with a type, its data and a pointer to its parent. Here
a value is an inductive tree, and a pointer to one of its nodes is the path from the
root to the node. A `Tree` is a value together with the parent pointers of its nodes, as
a function of the path. These are data of their own because the code does not keep them
in step with the structure.

The members of an object are in the order of `std::map`. The type of the floating point
numbers is a parameter.
-/

namespace Gearbox

/-- A JSON value. -/
inductive Json (D : Type) where
  | undef
  | bool (value : Bool)
  | int (value : ℤ)
  | double (value : D)
  | string (value : String)
  | object (members : List (String × Json D))
  | array (elements : List (Json D))

namespace Json

/-- `Json::Type` -/
inductive Kind where
  | undef
  | bool
  | int
  | double
  | string
  | object
  | array
  deriving DecidableEq, Repr

/-- How a call ends when it does not return. -/
inductive Failure where
  /-- a `JsonError` -/
  | json (message : String)
  /-- another `std::exception` -/
  | std (message : String)
  /-- an `assert` that does not hold -/
  | assertion
  /-- a null pointer or an index outside of an array is used -/
  | undefined
  /-- a loop that does not end -/
  | diverges
  deriving DecidableEq, Repr

/-- `Json::ErrorHandler`, without the context of the error. -/
abbrev ErrorHandler : Type :=
  String → Except Failure Bool

/-- `Json::onErrorThrow`, the error handler of a new node. -/
def onErrorThrow : ErrorHandler :=
  fun message => .error (.json message)

/-- `Json::onErrorWarn`, without the line that it writes to the standard error. -/
def onErrorWarn : ErrorHandler :=
  fun _ => .ok true

variable {D : Type}

def type : Json D → Kind
  | .undef => .undef
  | .bool _ => .bool
  | .int _ => .int
  | .double _ => .double
  | .string _ => .string
  | .object _ => .object
  | .array _ => .array

/-- `Json::typeToName` -/
def Kind.typeToName : Kind → String
  | .undef => "null"
  | .bool => "boolean"
  | .int => "integer"
  | .double => "double"
  | .string => "string"
  | .object => "object"
  | .array => "array"

/-- The error of `Json::assertType`. -/
def cannotConvert (j : Json D) (kind : Kind) : Failure :=
  .json ("cannot convert " ++ j.type.typeToName ++ " to " ++ kind.typeToName)

/-- `Json::as<bool>` -/
def asBool : Json D → Except Failure Bool
  | .bool b => .ok b
  | j => .error (cannotConvert j .bool)

/-- `Json::as<int64_t>` -/
def asInt64 : Json D → Except Failure ℤ
  | .int n => .ok n
  | j => .error (cannotConvert j .int)

/-- `Json::as<std::string>` -/
def asString : Json D → Except Failure String
  | .string s => .ok s
  | j => .error (cannotConvert j .string)

/-- `Json::as<Json::Object>` -/
def asObject : Json D → Except Failure (List (String × Json D))
  | .object o => .ok o
  | j => .error (cannotConvert j .object)

/-- The conversion of an integer to `int`. -/
def toInt32 (n : ℤ) : ℤ :=
  n.bmod (2 ^ 32)

/-- The conversion of an integer to `unsigned int`. -/
def toUInt32 (n : ℤ) : ℕ :=
  (n % 2 ^ 32).toNat

/-- The conversion of an integer to `uint64_t`. -/
def toUInt64 (n : ℤ) : ℕ :=
  (n % 2 ^ 64).toNat

/-- The value of a key, if the node is an object that has it. -/
def member : Json D → String → Option (Json D)
  | .object o, k => o.lookup k
  | _, _ => none

def hasKey (j : Json D) (k : String) : Bool :=
  (j.member k).isSome

/-- `Json::empty` -/
def empty : Json D → Bool
  | .undef => true
  | .string v => v = ""
  | .object o => o.isEmpty
  | .array a => a.isEmpty
  | _ => false

/-- `Json::length`, which returns the size of an array as an `int`. -/
def length : Json D → ℤ
  | .array a => toInt32 a.length
  | _ => -1

mutual

/-- `Json::copy`; the loop over an array counts in `unsigned int`. -/
def copy : Json D → Except Failure (Json D)
  | .object o => do return .object (← copyMembers o)
  | .array a => do
    let b ← copyElements a
    if a.length < 2 ^ 32 then return .array b else throw .diverges
  | j => .ok j

def copyMembers : List (String × Json D) → Except Failure (List (String × Json D))
  | [] => .ok []
  | (k, j) :: rest => do return (k, ← copy j) :: (← copyMembers rest)

def copyElements : List (Json D) → Except Failure (List (Json D))
  | [] => .ok []
  | j :: rest => do return (← copy j) :: (← copyElements rest)

end

/-- One step from a container to a node that it holds. -/
inductive Step where
  | key (k : String)
  | index (i : ℕ)
  deriving DecidableEq, Repr

/-- A pointer to a node: the steps from the root. -/
abbrev Path : Type :=
  List Step

def step : Json D → Step → Option (Json D)
  | .object o, .key k => o.lookup k
  | .array a, .index i => a[i]?
  | _, _ => none

/-- The node that a pointer points to. -/
def node (j : Json D) : Path → Option (Json D)
  | [] => some j
  | s :: p => (j.step s).bind fun c => c.node p

def modifyStep (s : Step) (f : Json D → Json D) : Json D → Json D
  | .object o =>
    match s with
    | .key k => .object (Assoc.modifyKey k f o)
    | .index _ => .object o
  | .array a =>
    match s with
    | .key _ => .array a
    | .index i => .array (a.modify i f)
  | j => j

/-- Changes the node that a pointer points to. -/
def modify : Path → (Json D → Json D) → Json D → Json D
  | [], f => f
  | s :: p, f => modifyStep s (modify p f)

section Laws

theorem step_key (j : Json D) (k : String) : j.step (.key k) = j.member k := by
  cases j <;> rfl

theorem step_modifyStep (j : Json D) (s s' : Step) (f : Json D → Json D) :
    (modifyStep s f j).step s' = if s' = s then (j.step s).map f else j.step s' := by
  cases j with
  | object o =>
      cases s with
      | key k =>
          cases s' with
          | key k' =>
              simp [modifyStep, step, Assoc.lookup_modifyKey]
          | index i =>
              simp [modifyStep, step]
      | index i =>
          cases s' with
          | key k' =>
              simp [modifyStep, step]
          | index i' =>
              simp [modifyStep, step]
  | array a =>
      cases s with
      | key k =>
          cases s' with
          | key k' =>
              simp [modifyStep, step]
          | index i' =>
              simp [modifyStep, step]
      | index i =>
          cases s' with
          | key k' =>
              simp [modifyStep, step]
          | index i' =>
              by_cases hi : i' = i
              · subst hi
                simp [modifyStep, step]
              · simp [modifyStep, step, hi, Ne.symm hi]
  | undef => simp [modifyStep, step]
  | bool b => simp [modifyStep, step]
  | int n => simp [modifyStep, step]
  | double d => simp [modifyStep, step]
  | string s => simp [modifyStep, step]

theorem modifyStep_modifyStep (j : Json D) (s : Step) (f g : Json D → Json D) :
    modifyStep s g (modifyStep s f j) = modifyStep s (g ∘ f) j := by
  cases j with
  | object o =>
      cases s with
      | key k => simp [modifyStep, Assoc.modifyKey_modifyKey]
      | index i => rfl
  | array a =>
      cases s with
      | key k => rfl
      | index i => simp [modifyStep, List.modify_modify_eq]
  | _ => rfl

theorem modifyStep_congr {j : Json D} {s : Step} {f g : Json D → Json D}
    (h : ∀ c, j.step s = some c → f c = g c) : modifyStep s f j = modifyStep s g j := by
  cases j with
  | object o =>
      cases s with
      | key k =>
          simp only [modifyStep]
          rw [Assoc.modifyKey_congr h]
      | index i => rfl
  | array a =>
      cases s with
      | key k => rfl
      | index i =>
          simp only [modifyStep, array.injEq]
          apply List.ext_getElem?
          intro i'
          rw [List.getElem?_modify, List.getElem?_modify]
          by_cases hi : i = i'
          · subst hi
            cases ha : a[i]? with
            | none => rfl
            | some c => simp [h c ha]
          · simp [hi]
  | _ => rfl

theorem modifyStep_id (j : Json D) (s : Step) : modifyStep s id j = j := by
  cases j with
  | object o =>
      cases s with
      | key k => simp [modifyStep, Assoc.modifyKey_id]
      | index i => rfl
  | array a =>
      cases s with
      | key k => rfl
      | index i => simp [modifyStep, List.modify_id]
  | _ => rfl

@[simp] theorem type_modifyStep (j : Json D) (s : Step) (f : Json D → Json D) :
    (modifyStep s f j).type = j.type := by
  cases j <;> cases s <;> rfl

@[simp] theorem length_modifyStep (j : Json D) (s : Step) (f : Json D → Json D) :
    (modifyStep s f j).length = j.length := by
  cases j with
  | array a => cases s <;> simp [modifyStep, length]
  | object o => cases s <;> rfl
  | _ => rfl

theorem node_append (j : Json D) (p q : Path) :
    j.node (p ++ q) = (j.node p).bind fun c => c.node q := by
  induction p generalizing j with
  | nil =>
      rfl
  | cons s p ih =>
      cases hs : j.step s with
      | none => simp [node, hs]
      | some c => simp [node, hs, ih]

theorem modify_append (p q : Path) (f : Json D → Json D) :
    modify (p ++ q) f = modify p (modify q f) := by
  induction p with
  | nil =>
      rfl
  | cons s p ih =>
      simp [modify, ih]

theorem node_modify_append (j : Json D) (p q : Path) (f : Json D → Json D) :
    (modify p f j).node (p ++ q) = (j.node p).bind fun c => (f c).node q := by
  induction p generalizing j with
  | nil =>
      rfl
  | cons s p ih =>
      simp only [modify, List.cons_append, node, step_modifyStep, if_true]
      cases hs : j.step s with
      | none => rfl
      | some c => simp [ih]

theorem node_modify (j : Json D) (p : Path) (f : Json D → Json D) :
    (modify p f j).node p = (j.node p).map f := by
  have h := node_modify_append j p [] f
  rw [List.append_nil] at h
  rw [h]
  cases j.node p <;> rfl

theorem modify_modify (j : Json D) (p : Path) (f g : Json D → Json D) :
    modify p g (modify p f j) = modify p (g ∘ f) j := by
  induction p generalizing j with
  | nil =>
      rfl
  | cons s p ih =>
      simp only [modify, modifyStep_modifyStep]
      apply modifyStep_congr
      intro c _
      exact ih c

theorem modify_congr {j : Json D} {p : Path} {f g : Json D → Json D}
    (h : ∀ c, j.node p = some c → f c = g c) : modify p f j = modify p g j := by
  induction p generalizing j with
  | nil =>
      exact h j rfl
  | cons s p ih =>
      apply modifyStep_congr
      intro c hc
      apply ih
      intro c' hc'
      exact h c' (by simp [node, hc, hc'])

theorem modify_id (j : Json D) (p : Path) : modify p id j = j := by
  induction p generalizing j with
  | nil =>
      rfl
  | cons s p ih =>
      have hstep : modifyStep s (modify p id) j = modifyStep s id j := by
        apply modifyStep_congr
        intro c _
        exact ih c
      rw [modify, hstep, modifyStep_id]

/-- Writing back what is there. -/
theorem modify_self {j c : Json D} {p : Path} (h : j.node p = some c) :
    modify p (fun _ => c) j = j := by
  have hid : modify p (fun _ => c) j = modify p id j := by
    apply modify_congr
    intro c' hc'
    rw [h] at hc'
    cases hc'
    rfl
  rw [hid, modify_id]

end Laws

/-- A value with the parent pointers of its nodes. -/
structure Tree (D : Type) where
  root : Json D
  parent : Path → Option Path

namespace Tree

/-- The parent of a node that was built by the parser or by `Json::copy`. -/
def container (p : Path) : Option Path :=
  if p = [] then none else some p.dropLast

/-- A tree that was just parsed. -/
def fresh (j : Json D) : Tree D where
  root := j
  parent := container

def modify (t : Tree D) (p : Path) (f : Json D → Json D) : Tree D :=
  { t with root := t.root.modify p f }

def setParent (t : Tree D) (p : Path) (parent : Option Path) : Tree D :=
  { t with parent := fun q => if q = p then parent else t.parent q }

/-- `Json::addKey` on the object at `p`. -/
def addKey (t : Tree D) (p : Path) (k : String) : Tree D :=
  (t.modify p fun
    | .object o => .object (Assoc.insertKey k .undef o)
    | j => j).setParent (p ++ [.key k]) (some p)

/-- `Json::operator=` with a copy of the value of another tree. The parent of the node
is reset, those of the nodes below are the containers. -/
def assign (t : Tree D) (p : Path) (j : Json D) : Tree D :=
  { root := t.root.modify p fun _ => j
    parent := fun q =>
      if q = p then none else if p <+: q then container q else t.parent q }

end Tree

end Json

end Gearbox
