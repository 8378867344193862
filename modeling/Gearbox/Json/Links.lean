import Mathlib.Data.List.Induction
import Gearbox.Json.Agreement
import Gearbox.Json.Parents

/-!
# Runs of operations on a tree

The operations of `Json` that change a tree, each at a node of it, and what the parent
pointers are used for: `context` follows them from a node to the root, and the parser
follows those of a schema from a sub-schema to the schema that selected it.

The assignment of another tree resets the pointer of the node that is assigned to, and
the defaults of a schema are filled in by such assignments. In a run without them, except
for an assignment to the root, the pointers are right all the time.
-/

namespace Gearbox

namespace Json

open Refinement

variable {D : Type}

section Operations

/-- The types that a node is assigned a value of with `operator=`. -/
inductive Scalar (D : Type) where
  | bool (value : Bool)
  | int (value : ℤ)
  | double (value : D)
  | string (value : String)

def Scalar.toJson : Scalar D → Json D
  | .bool b => .bool b
  | .int n => .int n
  | .double x => .double x
  | .string v => .string v

/-- An operation on a node. -/
inductive Op (D : Type) where
  /-- `Json::parse`, with the schema that was set and the error handlers of its nodes -/
  | parse (text : Text) (schema : Option (Tree D)) (handlers : Path → ErrorHandler)
  /-- `operator[]` with a key -/
  | key (k : String)
  /-- `operator[]` with an index -/
  | index (idx : ℕ)
  /-- `operator=` with a scalar -/
  | set (value : Scalar D)
  /-- `operator=` with another tree -/
  | assign (value : Json D)
  | deleteKey (k : String)
  | clear
  /-- `JsonSchema::setDefaults` of a schema, called with the node -/
  | fill (schema : Tree D)

/-- The body of the loop of `growArray`. -/
def Tree.pushBack (t : Tree D) (p : Path) : Tree D :=
  match t.root.node p with
  | some (.array a) =>
    (t.modify p fun _ => .array (a ++ [.undef])).setParent (p ++ [.index a.length]) (some p)
  | _ => t

/-- `Json::growArray` on the array at `this`. -/
def growArray (this : Path) (a : List (Json D)) (size : ℕ) : SchemaM D Unit :=
  update fun t => (fun t => t.pushBack this)^[size - a.length] t

/-- `Json::operator[]` for an index, which is an `int`. -/
def indexAt (env : Env D) (this : Path) (idx : ℕ) : SchemaM D Path := do
  if idx + 1 < 2 ^ 31 then
    match ← load this with
    | .array a =>
      growArray this a (idx + 1)
      return this ++ [.index idx]
    | .undef =>
      update fun t => t.modify this fun _ => .array []
      growArray this [] (idx + 1)
      return this ++ [.index idx]
    | j =>
      let _ ← env.errHandler this ("cannot access array index on type " ++ j.type.typeToName)
      return this
  else
    throw .undefined

/-- `Json::deleteKey` -/
def deleteKey (env : Env D) (this : Path) (k : String) : SchemaM D Bool := do
  match ← load this with
  | .object o =>
    if (o.lookup k).isSome then
      update fun t => t.modify this fun _ => .object (o.filter fun m => m.1 ≠ k)
      return true
    else
      return false
  | j => env.errHandler this ("delKey() called on type " ++ j.type.typeToName)

/-- The context at the start of a parse of the node at `this`. -/
def Context.at (t : Tree D) (this : Path) (schema : Option (Tree D)) : Context D :=
  { Context.start schema with
    json := t.modify this fun _ => .undef
    cursor := some this }

/-- `Json::parse` -/
def parseAt (env : Env D) (this : Path) (text : Text) (schema : Option (Tree D)) :
    SchemaM D Unit :=
  Code.mk fun t =>
    let r := outcome (parseText env text) (Context.at t this schema)
    (r.1, r.2.json)

/-- The loop of `setDefaults`, whose assignments stay when it throws. -/
def fillLoop (env : Env D) (this : Path) (object : Json D) :
    List String → Tree D → Tree D → Except Failure Unit × Tree D
  | [], _, t => (.ok (), t)
  | k :: rest, schema, t =>
    match outcome (setDefault env [] object k) schema with
    | (.ok added, schema') => fillLoop env this object rest schema' (addDefaults this added t)
    | (.error e, _) => (.error e, t)

/-- `JsonSchema::setDefaults` with the object at `this`. -/
def fill (env : Env D) (this : Path) (schema : Tree D) : SchemaM D Unit := do
  match ← load this with
  | .object o =>
    let keys ← schema.root.properties
    Code.mk (fillLoop env this (.object o) keys schema)
  | _ => throw .assertion

/-- An operation on the node at `this`. -/
def Op.perform (env : Env D) (this : Path) (op : Op D) : SchemaM D Unit := do
  let _ ← load this
  match op with
  | .parse text schema handlers =>
    parseAt { env with errHandler := handlers } this text schema
  | .key k => let _ ← Json.index env this k
  | .index idx => let _ ← indexAt env this idx
  | .set value => update fun t => t.modify this fun _ => value.toJson
  | .assign value =>
    let copied ← value.copy
    update fun t => t.assign this copied
  | .deleteKey k => let _ ← Json.deleteKey env this k
  | .clear => update fun t => t.modify this fun _ => .undef
  | .fill schema => Json.fill env this schema

/-- What is left of a tree by operations, each on a node. An operation may throw. -/
def run (env : Env D) : List (Path × Op D) → Tree D → Tree D
  | [], t => t
  | (this, op) :: rest, t => run env rest (outcome (op.perform env this) t).2

/-- No operation copies a tree into a node that sits in a container: a value is assigned
to the root only, and no default is filled in. -/
def Op.Safe (env : Env D) (this : Path) (t : Tree D) : Op D → Prop
  | .assign _ => this = []
  | .parse text schema handlers =>
    ¬ FillsAt { env with errHandler := handlers } text.events (Context.at t this schema)
  | .fill schema => ∀ object, t.root.node this = some object → ∀ k,
      ((schema.root.property k).bind fun p => p.member "default").isSome = true →
        object.hasKey k = true
  | _ => True

/-- All operations of a run are safe where they are made. -/
def Safe (env : Env D) : List (Path × Op D) → Tree D → Prop
  | [], _ => True
  | (this, op) :: rest, t =>
    op.Safe env this t ∧ Safe env rest (outcome (op.perform env this) t).2

end Operations

section Steps

/-- A tree was changed at `this` or below, and its pointers are as right as before. -/
structure Tree.Tended (this : Path) (t t' : Tree D) : Prop where
  below : ∀ q, t.ParentedBelow q → t'.ParentedBelow q
  above : ∀ q : Path, q.length ≤ this.length → t'.parent q = t.parent q

variable {env : Env D} {this : Path} {t t' t'' : Tree D}

theorem Tree.Tended.refl (this : Path) (t : Tree D) : Tree.Tended this t t :=
  ⟨fun _ h => h, fun _ _ => rfl⟩

theorem Tree.Tended.trans (h : Tree.Tended this t t') (h' : Tree.Tended this t' t'') :
    Tree.Tended this t t'' where
  below := fun q hq => h'.below q (h.below q hq)
  above := fun q hq => (h'.above q hq).trans (h.above q hq)

/-- The node gets a value that has no nodes below. -/
theorem tended_setData (this : Path) (t : Tree D) {j : Json D}
    (hj : ∀ s, j.step s = none) : Tree.Tended this t (t.modify this fun _ => j) where
  below := fun _ h => h.setData hj
  above := fun _ _ => rfl

theorem parent_setParent_of_le (t : Tree D) (this q : Path) (s : Step) (p : Option Path)
    (hq : q.length ≤ this.length) :
    (t.setParent (this ++ [s]) p).parent q = t.parent q := by
  refine if_neg fun h => ?_
  rw [h, List.length_append, List.length_singleton] at hq
  omega

theorem tended_addKey {k : String}
    (hk : ∀ o, t.root.node this = some (.object o) → o.lookup k = none) :
    Tree.Tended this t (t.addKey this k) where
  below := fun _ h => h.addKey hk
  above := fun q hq => parent_setParent_of_le _ this q (.key k) (some this) hq

theorem tended_pushBack (this : Path) (t : Tree D) :
    Tree.Tended this t (t.pushBack this) := by
  unfold Tree.pushBack
  split
  · rename_i a ha
    constructor
    · exact fun _ h => h.pushBack ha
    · exact fun q hq => parent_setParent_of_le _ this q (.index a.length) (some this) hq
  · exact Tree.Tended.refl this t

theorem keeps_load (p : Path) : Keeps (Tree.Tended this t) (load p : SchemaM D (Json D)) := by
  intro t' h
  rw [load, outcome_mk]
  split
  · exact h
  · exact h

theorem keeps_growArray (a : List (Json D)) (size : ℕ) :
    Keeps (Tree.Tended this t) (growArray this a size) := by
  intro t' h
  change Tree.Tended this t ((fun t => t.pushBack this)^[size - a.length] t')
  generalize size - a.length = n
  induction n with
  | zero => exact h
  | succ n ih =>
      rw [Function.iterate_succ_apply']
      exact ih.trans (tended_pushBack this _)

theorem keeps_index (k : String) : Keeps (Tree.Tended this t) (index env this k) := by
  refine (keeps_load this).bind_outcome fun t₁ j t₂ h hload _ => ?_
  obtain ⟨rfl, hnode⟩ := outcome_load_ok hload
  cases j with
  | object o =>
      dsimp only
      split
      · exact h
      · rename_i hkey
        refine h.trans (tended_addKey fun o' ho' => ?_)
        rw [hnode] at ho'
        cases ho'
        exact Option.not_isSome_iff_eq_none.mp hkey
  | undef =>
      have hstart : Tree.Tended this t₂ (t₂.modify this fun _ => .object []) :=
        tended_setData this t₂ fun s => by cases s <;> rfl
      refine (h.trans hstart).trans (tended_addKey fun o ho => ?_)
      have hobject : (t₂.modify this fun _ => .object []).root.node this =
          some (.object []) := by
        change (t₂.root.modify this _).node this = _
        rw [node_modify, hnode, Option.map_some]
      rw [hobject] at ho
      cases ho
      rfl
  | _ => exact Keeps.bind (keeps_lift _) (fun _ => keeps_pure _) t₂ h

theorem keeps_indexAt (idx : ℕ) : Keeps (Tree.Tended this t) (indexAt env this idx) := by
  unfold indexAt
  split
  · refine Keeps.bind (keeps_load this) fun j => ?_
    cases j with
    | array a => exact Keeps.bind (keeps_growArray a _) fun _ => keeps_pure _
    | undef =>
        refine Keeps.bind (fun t' h => h.trans ?_) fun _ =>
          Keeps.bind (keeps_growArray [] _) fun _ => keeps_pure _
        exact tended_setData this t' fun s => by cases s <;> rfl
    | _ => exact Keeps.bind (keeps_lift _) fun _ => keeps_pure _
  · exact keeps_throw _

theorem lookup_filter_ne (o : List (String × Json D)) (k k' : String) :
    (o.filter fun m => m.1 ≠ k).lookup k' = if k' = k then none else o.lookup k' := by
  induction o with
  | nil => simp
  | cons m rest ih =>
      obtain ⟨k₀, v⟩ := m
      rw [List.filter_cons]
      by_cases hm : k₀ = k
      · subst hm
        by_cases hk : k' = k₀
        · simpa [hk] using ih
        · simpa [hk, Assoc.lookup_cons_eq] using ih
      · by_cases hk : k' = k
        · have hne : k' ≠ k₀ := by
            rw [hk]
            exact Ne.symm hm
          simpa [hm, hk, Assoc.lookup_cons_eq, hne, Ne.symm hm] using ih
        · rw [if_pos (by simp [hm]), Assoc.lookup_cons_eq, Assoc.lookup_cons_eq, ih,
            if_neg hk, if_neg hk]

/-- The nodes that are left were there before. -/
theorem isSome_node_filter {o : List (String × Json D)} {k : String} {p : Path} (hp : p ≠ [])
    (h : ((object (o.filter fun m => m.1 ≠ k)).node p).isSome = true) :
    ((object o).node p).isSome = true := by
  cases p with
  | nil => exact absurd rfl hp
  | cons s p =>
      cases s with
      | index i => cases h
      | key k' =>
          rw [node_lookup, lookup_filter_ne] at h
          split at h
          · cases h
          · exact h

theorem keeps_deleteKey (k : String) : Keeps (Tree.Tended this t) (deleteKey env this k) := by
  refine (keeps_load this).bind_outcome fun t₁ j t₂ h hload _ => ?_
  obtain ⟨rfl, hnode⟩ := outcome_load_ok hload
  cases j with
  | object o =>
      dsimp only
      split
      · refine h.trans ⟨fun q hq => hq.modify fun c hc r s hr => ?_, fun _ _ => rfl⟩
        rw [hnode] at hc
        cases hc
        exact isSome_node_filter (by simp) hr
      · exact h
  | _ => exact h

/-- The pointers of a tree are right. The root has no parent. -/
structure Tree.Anchored (t : Tree D) : Prop where
  parented : t.Parented
  root : t.parent [] = none

theorem Tree.Tended.anchored (h : Tree.Tended this t t') (ht : t.Anchored) : t'.Anchored where
  parented := h.below [] ht.parented
  root := (h.above [] (Nat.zero_le _)).trans ht.root

/-- What is below a node that got a whole tree. -/
theorem anchored_assign_nil (t : Tree D) (j : Json D) : (t.assign [] j).Anchored where
  parented := by
    intro p s _ _
    change (if p ++ [s] = [] then none
      else if [] <+: p ++ [s] then Tree.container (p ++ [s]) else t.parent (p ++ [s])) = some p
    rw [if_neg (by simp), if_pos List.nil_prefix, Tree.container, if_neg (by simp),
      List.dropLast_concat]
  root := by simp [Tree.assign]

theorem anchored_parseAt {env' : Env D} {text : Text} {schema : Option (Tree D)}
    (ht : t.Anchored) (hfills : ¬ FillsAt env' text.events (Context.at t this schema)) :
    (outcome (parseAt env' this text schema) t).2.Anchored := by
  have hfreed : Tree.Tended this t (t.modify this fun _ => .undef) :=
    tended_setData this t fun _ => rfl
  have hstart : (Context.at t this schema).Parented False none :=
    ⟨(hfreed.anchored ht).parented, (hfreed.anchored ht).root, False.elim⟩
  have hparse := parented_parseText text hstart hfills
  exact ⟨hparse.json, hparse.root⟩

/-- Nothing is filled in where nothing lacks. -/
theorem fillLoop_eq {object : Json D} {schema t : Tree D}
    (hkeys : ∀ k, ((schema.root.property k).bind fun p => p.member "default").isSome = true →
      object.hasKey k = true) (ks : List String) :
    (fillLoop env this object ks schema t).2 = t := by
  induction ks with
  | nil => rfl
  | cons k rest ih =>
      rw [fillLoop]
      cases hfirst : outcome (setDefault env [] object k) schema with
      | mk r schema' =>
          cases r with
          | error e => rfl
          | ok added =>
              obtain ⟨rfl, rfl⟩ := setDefault_ok rfl (hkeys k) hfirst
              exact ih

theorem anchored_fill {schema : Tree D} (ht : t.Anchored)
    (hkeys : ∀ object, t.root.node this = some object → ∀ k,
      ((schema.root.property k).bind fun p => p.member "default").isSome = true →
        object.hasKey k = true) :
    (outcome (fill env this schema) t).2.Anchored := by
  have hsame := keeps_load (D := D) this t (Tree.Tended.refl this t)
  refine kept_bind (hsame.anchored ht) fun j t₁ hload => ?_
  obtain ⟨rfl, hnode⟩ := outcome_load_ok hload
  cases j with
  | object o =>
      cases hproperties : schema.root.properties with
      | error e => exact ht
      | ok ks =>
          change (fillLoop env this (.object o) ks schema t₁).2.Anchored
          rw [fillLoop_eq (hkeys _ hnode)]
          exact ht
  | _ => exact ht

/-- A safe operation leaves the pointers right. -/
theorem anchored_perform {op : Op D} (ht : t.Anchored) (hsafe : op.Safe env this t) :
    (outcome (op.perform env this) t).2.Anchored := by
  have htended : ∀ {m : SchemaM D Unit}, Keeps (Tree.Tended this t) m →
      (outcome m t).2.Anchored :=
    fun hm => (hm t (Tree.Tended.refl this t)).anchored ht
  have hload := keeps_load (D := D) this t (Tree.Tended.refl this t)
  refine kept_bind (hload.anchored ht) fun j t₁ houtcome => ?_
  obtain ⟨rfl, -⟩ := outcome_load_ok houtcome
  cases op with
  | parse text schema handlers => exact anchored_parseAt ht hsafe
  | key k => exact htended (Keeps.bind (keeps_index k) fun _ => keeps_pure _)
  | index idx => exact htended (Keeps.bind (keeps_indexAt idx) fun _ => keeps_pure _)
  | set value =>
      refine (tended_setData this t₁ fun s => ?_).anchored ht
      cases value <;> rfl
  | assign value =>
      dsimp only
      cases value.copy with
      | error e => exact ht
      | ok copied =>
          change (t₁.assign this copied).Anchored
          rw [show this = [] from hsafe]
          exact anchored_assign_nil t₁ copied
  | deleteKey k => exact htended (Keeps.bind (keeps_deleteKey k) fun _ => keeps_pure _)
  | clear => exact (tended_setData this t₁ fun _ => rfl).anchored ht
  | fill schema => exact anchored_fill ht hsafe

/-- After a run of safe operations the pointers are right. -/
theorem anchored_run {ops : List (Path × Op D)} (ht : t.Anchored) (hsafe : Safe env ops t) :
    (run env ops t).Anchored := by
  induction ops generalizing t with
  | nil => exact ht
  | cons op rest ih => exact ih (anchored_perform ht hsafe.1) hsafe.2

end Steps

section Contexts

/-- What `context` adds for the node at `this` when its parent is the node at `parent`. The
search in an array counts in `unsigned int`. -/
def Tree.place (t : Tree D) (parent this : Path) : Except Failure String :=
  match t.root.node parent with
  | none => .error .undefined
  | some (.array a) =>
    match (List.range (min a.length (2 ^ 32))).find? fun i => parent ++ [.index i] = this with
    | some i => .ok ("[" ++ toString i ++ "]")
    | none => if a.length < 2 ^ 32 then .ok "[?]" else .error .diverges
  | some (.object o) =>
    match o.find? fun m => parent ++ [.key m.1] = this with
    | some m => .ok ("[\"" ++ m.1 ++ "\"]")
    | none => .ok "[\"?\"]"
  | some _ => .ok ""

/-- `Json::context`, which follows the pointers; the first argument bounds how often. -/
def Tree.context (t : Tree D) : ℕ → Path → Except Failure String
  | 0, _ => .error .diverges
  | n + 1, this =>
    match t.parent this with
    | none => .ok ""
    | some parent => do return (← t.context n parent) ++ (← t.place parent this)

def Step.text : Step → String
  | .key k => "[\"" ++ k ++ "\"]"
  | .index i => "[" ++ toString i ++ "]"

/-- The text of a whole path. -/
def pathText (p : Path) : String :=
  p.foldl (fun text s => text ++ s.text) ""

theorem pathText_concat (p : Path) (s : Step) : pathText (p ++ [s]) = pathText p ++ s.text := by
  simp [pathText]

variable {t : Tree D} {p : Path} {s : Step}

/-- A node is found in the container that holds it. -/
theorem place_eq (hnode : (t.root.node (p ++ [s])).isSome = true)
    (hs : ∀ i, s = .index i → i < 2 ^ 32) : t.place p (p ++ [s]) = .ok s.text := by
  rw [node_append] at hnode
  cases hp : t.root.node p with
  | none =>
      rw [hp] at hnode
      cases hnode
  | some c =>
      rw [hp, Option.bind_some] at hnode
      unfold Tree.place
      rw [hp]
      cases c with
      | array a =>
          cases s with
          | key k => cases hnode
          | index i =>
              have hlength : i < a.length := by
                simpa [node, step] using hnode
              have hfind : ((List.range (min a.length (2 ^ 32))).find? fun i' =>
                  p ++ [.index i'] = p ++ [.index i]) = some i := by
                rw [List.find?_range_eq_some]
                refine ⟨by simp, ?_, fun j hj => ?_⟩
                · have hi := hs i rfl
                  rw [List.mem_range]
                  omega
                · simp [Nat.ne_of_lt hj]
              dsimp only
              rw [hfind]
              rfl
      | object o =>
          cases s with
          | index i => cases hnode
          | key k =>
              have hkey : (o.lookup k).isSome = true := by
                simpa [node, step] using hnode
              have hfind : ∃ v, (o.find? fun m =>
                  p ++ [Step.key m.1] = p ++ [Step.key k]) = some (k, v) := by
                rw [Assoc.isSome_lookup] at hkey
                obtain ⟨m, hm, hmk⟩ := List.mem_map.mp (of_decide_eq_true hkey)
                cases hfind : o.find? fun m => p ++ [Step.key m.1] = p ++ [Step.key k] with
                | none =>
                    have hnone := List.find?_eq_none.mp hfind m hm
                    simp [hmk] at hnone
                | some found =>
                    have hfound := List.find?_some hfind
                    simp only [List.append_cancel_left_eq, List.cons.injEq, Step.key.injEq,
                      and_true, decide_eq_true_eq] at hfound
                    exact ⟨found.2, by rw [← hfound]⟩
              obtain ⟨v, hv⟩ := hfind
              dsimp only
              rw [hv]
              rfl
      | _ => cases hnode

/-- Where the pointers are right, the context of a node is the text of its path. -/
theorem context_eq (ht : t.Anchored) (hnode : (t.root.node p).isSome = true)
    (hp : ∀ i, .index i ∈ p → i < 2 ^ 32) {n : ℕ} (hn : p.length < n) :
    t.context n p = .ok (pathText p) := by
  induction p using List.reverseRecOn generalizing n with
  | nil =>
      cases n with
      | zero => omega
      | succ n =>
          rw [Tree.context, ht.root]
          rfl
  | append_singleton p s ih =>
      cases n with
      | zero => omega
      | succ n =>
          have hparent : t.parent (p ++ [s]) = some p :=
            ht.parented p s List.nil_prefix hnode
          have hup : (t.root.node p).isSome = true := by
            rw [node_append] at hnode
            cases hc : t.root.node p with
            | none =>
                rw [hc] at hnode
                cases hnode
            | some c => rfl
          have hplace := place_eq hnode fun i hi => hp i (by simp [hi])
          have hcontext : t.context n p = .ok (pathText p) := by
            refine ih hup (fun i hi => hp i (List.mem_append_left _ hi)) ?_
            rw [List.length_append, List.length_singleton] at hn
            omega
          rw [Tree.context, hparent, pathText_concat]
          dsimp only
          rw [hcontext, hplace]
          rfl

end Contexts

section Selection

/-- What a sub-schema is selected for: the value of a key or an element of an array. -/
inductive Choice where
  | key (k : String)
  | element (idx : ℤ)

/-- `JsonSchema::getChildSchema` -/
def getChild (env : Env D) (this : Path) : Choice → SchemaM D (Option Path)
  | .key k => getChildSchema env this k
  | .element idx => getChildSchemaAt env this idx

/-- The schemas that the cursor of the parser goes down through. The parse stops when none
is selected. -/
def visit (env : Env D) (this : Path) : List Choice → SchemaM D (List Path)
  | [] => return [this]
  | choice :: rest => do
    match ← getChild env this choice with
    | some child => return this :: (← visit env child rest)
    | none => throw (.json "parse error")

variable {env : Env D} {this : Path} {t t' : Tree D}

theorem Tree.ParentedBelow.mono {q : Path} (h : t.ParentedBelow this) (hq : this <+: q) :
    t.ParentedBelow q :=
  fun p s hp => h p s (hq.trans hp)

theorem keeps_parseAny {p : Path} (hp : this.length ≤ p.length) :
    Keeps (Tree.Tended this t) (parseAny p : SchemaM D Unit) := by
  intro t₁ h
  refine h.trans ⟨fun q hq => hq.grow fun c _ r s hr => ?_, fun q hq => ?_⟩
  · right
    cases r with
    | nil =>
        cases s with
        | index i => cases hr
        | key k =>
            by_cases hk : k = "type"
            · rw [hk]
              rfl
            · rw [List.nil_append, anySchema, node_lookup, Assoc.lookup_cons_eq,
                if_neg hk] at hr
              cases hr
    | cons s' r =>
        cases s' with
        | index i => cases hr
        | key k =>
            rw [List.cons_append, anySchema, node_lookup, Assoc.lookup_cons_eq] at hr
            split at hr
            · rw [Option.bind_some, node_concat_scalar (fun _ => rfl)] at hr
              cases hr
            · cases hr
  · exact parent_setParent_of_le _ p q (.key "type") (some p) (Nat.le_trans hq hp)

/-- The node of a key that was added. -/
theorem isSome_node_addKey {k : String} {o : List (String × Json D)}
    (hnode : t.root.node this = some (.object o)) :
    ((t.addKey this k).root.node (this ++ [.key k])).isSome = true := by
  change ((t.root.modify this _).node (this ++ [.key k])).isSome = true
  rw [node_modify_append, hnode, Option.bind_some]
  change (((Assoc.insertKey k undef o).lookup k).bind fun c => c.node []).isSome = true
  have hkey := Assoc.isSome_lookup_insertKey k (undef : Json D) o
  obtain ⟨v, hv⟩ := Option.isSome_iff_exists.mp hkey
  rw [hv]
  rfl

/-- The pointer that `operator[]` returns. -/
theorem index_ok {k : String} {p : Path} (h : outcome (index env this k) t = (.ok p, t')) :
    (t'.root.node p).isSome = true ∧
      (p = this ++ [.key k] ∨ p = this ∧ ∀ o, t.root.node this ≠ some (.object o)) := by
  obtain ⟨j, t₁, hload, hrest⟩ := exists_of_bind h
  obtain ⟨rfl, hnode⟩ := outcome_load_ok hload
  cases j with
  | object o =>
      dsimp only at hrest
      split at hrest
      · rename_i hkey
        cases hrest
        refine ⟨?_, .inl rfl⟩
        rw [node_append, hnode, Option.bind_some]
        obtain ⟨v, hv⟩ := Option.isSome_iff_exists.mp hkey
        rw [node_lookup, hv]
        rfl
      · cases hrest
        exact ⟨isSome_node_addKey hnode, .inl rfl⟩
  | undef =>
      cases hrest
      refine ⟨isSome_node_addKey (o := []) ?_, .inl rfl⟩
      change (t₁.root.modify this _).node this = _
      rw [node_modify, hnode, Option.map_some]
  | _ =>
      obtain ⟨b, t₂, hhandler, hreturn⟩ := exists_of_bind hrest
      obtain ⟨-, rfl⟩ := Prod.mk.inj hhandler
      cases hreturn
      refine ⟨by rw [hnode]; rfl, .inr ⟨rfl, fun o ho => ?_⟩⟩
      rw [hnode] at ho
      cases ho

/-- A node with a key below is an object. -/
theorem object_of_node_key {j : Json D} {p : Path} {k : String}
    (h : (j.node (p ++ [.key k])).isSome = true) :
    ∃ o, j.node p = some (.object o) ∧ (o.lookup k).isSome = true := by
  rw [node_append] at h
  cases hp : j.node p with
  | none =>
      rw [hp] at h
      cases h
  | some c =>
      rw [hp, Option.bind_some] at h
      cases c with
      | object o =>
          refine ⟨o, rfl, ?_⟩
          rw [node_lookup] at h
          cases hk : o.lookup k with
          | none =>
              rw [hk] at h
              cases h
          | some v => rfl
      | _ => cases h

theorem keeps_create :
    Keeps (Tree.Tended this t) (getAdditionalProperties.create env this) := by
  refine (keeps_index _).bind_outcome fun t₁ p t₂ _ hindex htended => ?_
  have hlength : this.length ≤ p.length := by
    rcases (index_ok hindex).2 with rfl | ⟨rfl, -⟩
    · simp
    · exact Nat.le_refl _
  exact Keeps.bind (keeps_parseAny hlength) (fun _ => keeps_index _) t₂ htended

theorem keeps_getAdditionalProperties :
    Keeps (Tree.Tended this t) (getAdditionalProperties env this) := by
  refine Keeps.bind (keeps_load this) fun j => ?_
  split
  · exact Keeps.bind keeps_create fun _ => keeps_pure _
  · exact keeps_pure _
  · exact keeps_pure _
  · exact Keeps.bind keeps_create fun _ => keeps_pure _

/-- The schema that is created is there. -/
theorem create_ok {p : Path}
    (h : outcome (getAdditionalProperties.create env this) t = (.ok p, t')) :
    p = this ++ [.key "additionalProperties"] ∧ (t'.root.node p).isSome = true := by
  obtain ⟨p₁, t₁, hfirst, hrest⟩ := exists_of_bind h
  have hobject : ∃ o, (t₁.root.modify p₁ fun _ => anySchema).node this =
      some (.object o) := by
    obtain ⟨hnode, rfl | ⟨rfl, -⟩⟩ := index_ok hfirst
    · obtain ⟨o, ho, -⟩ := object_of_node_key hnode
      rw [modify_append, node_modify, ho]
      exact ⟨_, rfl⟩
    · obtain ⟨c, hc⟩ := Option.isSome_iff_exists.mp hnode
      rw [node_modify, hc]
      exact ⟨_, rfl⟩
  obtain ⟨o, ho⟩ := hobject
  obtain ⟨hnode, rfl | ⟨-, hnot⟩⟩ := index_ok hrest
  · exact ⟨rfl, hnode⟩
  · exact absurd ho (hnot o)

/-- A schema that a keyword holds. -/
theorem isSome_node_member {j c : Json D} {k : String} (hnode : t.root.node this = some j)
    (hk : j.member k = some c) : (t.root.node (this ++ [.key k])).isSome = true := by
  rw [node_append, hnode, Option.bind_some]
  simp [node, step_key, hk]

theorem getAdditionalProperties_ok {p : Path}
    (h : outcome (getAdditionalProperties env this) t = (.ok (some p), t')) :
    p = this ++ [.key "additionalProperties"] ∧ (t'.root.node p).isSome = true := by
  have hcreate : ∀ t₁, outcome (do return some (← getAdditionalProperties.create env this) :
      SchemaM D (Option Path)) t₁ = (.ok (some p), t') →
      p = this ++ [.key "additionalProperties"] ∧ (t'.root.node p).isSome = true := by
    intro t₁ h
    obtain ⟨p', t₂, hok, hreturn⟩ := exists_of_bind h
    cases hreturn
    exact create_ok hok
  obtain ⟨j, t₁, hload, hrest⟩ := exists_of_bind h
  obtain ⟨rfl, hnode⟩ := outcome_load_ok hload
  split at hrest
  · exact hcreate t₁ hrest
  · rename_i o hmember
    cases hrest
    exact ⟨rfl, isSome_node_member hnode hmember⟩
  · cases hrest
  · exact hcreate t₁ hrest

/-- A sub-schema was selected: its parent is the schema that selected it. -/
structure Selected (this : Path) (t : Tree D) (child : Path) (t' : Tree D) : Prop where
  parent : t'.parent child = some this
  below : t'.ParentedBelow child
  length : this.length ≤ child.length
  above : ∀ q : Path, q.length ≤ this.length → t'.parent q = t.parent q

/-- The sub-schema is a node right below the schema. -/
theorem selected_key {k : String} (h : t.ParentedBelow this) (ht : Tree.Tended this t t')
    (hnode : (t'.root.node (this ++ [.key k])).isSome = true) :
    Selected this t (this ++ [.key k]) t' where
  parent := ht.below this h this (.key k) (List.prefix_refl _) hnode
  below := (ht.below this h).mono (List.prefix_append _ _)
  length := by simp
  above := ht.above

/-- The parent of the sub-schema is set. -/
theorem selected_setParent {k : String} {s : Step} (h : t.ParentedBelow this)
    (ht : Tree.Tended this t t') :
    Selected this t (this ++ [.key k, s])
      (t'.setParent (this ++ [.key k, s]) (some this)) where
  parent := if_pos rfl
  below := by
    intro p s' hp hnode
    change (if p ++ [s'] = this ++ [.key k, s] then some this else t'.parent (p ++ [s'])) =
      some p
    have hlength := hp.length_le
    rw [List.length_append] at hlength
    rw [if_neg fun heq => ?_]
    · exact ht.below this h p s' ((List.prefix_append _ _).trans hp) hnode
    · have hsame := congrArg List.length heq
      simp only [List.length_append, List.length_cons, List.length_nil] at hsame hlength
      omega
  length := by simp
  above := by
    intro q hq
    change (if q = this ++ [.key k, s] then some this else t'.parent q) = t.parent q
    rw [if_neg fun heq => ?_]
    · exact ht.above q hq
    · rw [heq, List.length_append] at hq
      simp only [List.length_cons, List.length_nil] at hq
      omega

theorem tended_getAdditionalProperties {r : Option Path}
    (h : outcome (getAdditionalProperties env this) t = (.ok r, t')) :
    Tree.Tended this t t' := by
  have hkeeps : Tree.Tended this t (outcome (getAdditionalProperties env this) t).2 :=
    keeps_getAdditionalProperties t (Tree.Tended.refl this t)
  rwa [h] at hkeeps

/-- The schema for what is not listed. -/
theorem selected_additional {p : Path} (h : t.ParentedBelow this)
    (hadd : outcome (getAdditionalProperties env this) t = (.ok (some p), t')) :
    Selected this t p t' := by
  obtain ⟨rfl, hnode⟩ := getAdditionalProperties_ok hadd
  exact selected_key h (tended_getAdditionalProperties hadd) hnode

/-- A branch that ends with the call of the error handler. -/
theorem not_selected {child : Path} {r : Except Failure Bool}
    (h : outcome (do let _ ← r; return none : SchemaM D (Option Path)) t =
      (.ok (some child), t')) : False := by
  obtain ⟨b, t₁, -, hreturn⟩ := exists_of_bind h
  cases hreturn

theorem selected_getChildSchema {k : String} {child : Path} (h : t.ParentedBelow this)
    (hchild : outcome (getChildSchema env this k) t = (.ok (some child), t')) :
    Selected this t child t' := by
  obtain ⟨addProp, t₁, hadd, hrest⟩ := exists_of_bind hchild
  obtain ⟨j, t₂, hload, hselect⟩ := exists_of_bind hrest
  obtain ⟨rfl, hnode⟩ := outcome_load_ok hload
  dsimp only at hselect
  split at hselect
  · split at hselect
    · cases hselect
      exact selected_setParent h (tended_getAdditionalProperties hadd)
    · split at hselect
      · cases hselect
        exact selected_additional h hadd
      · exact (not_selected hselect).elim
  · split at hselect
    · cases hselect
      exact selected_additional h hadd
    · exact (not_selected hselect).elim

theorem selected_getChildSchemaAt {idx : ℤ} {child : Path} (h : t.ParentedBelow this)
    (hchild : outcome (getChildSchemaAt env this idx) t = (.ok (some child), t')) :
    Selected this t child t' := by
  obtain ⟨addProp, t₁, hadd, hrest⟩ := exists_of_bind hchild
  obtain ⟨j, t₂, hload, hselect⟩ := exists_of_bind hrest
  obtain ⟨rfl, hnode⟩ := outcome_load_ok hload
  dsimp only at hselect
  split at hselect
  · rename_i items hitems
    split at hselect
    · split at hselect
      · split at hselect
        · cases hselect
          exact selected_additional h hadd
        · exact (not_selected hselect).elim
      · split at hselect
        · cases hselect
        · cases hselect
          exact selected_setParent h (tended_getAdditionalProperties hadd)
    · cases hselect
      exact selected_key h (tended_getAdditionalProperties hadd)
        (isSome_node_member hnode hitems)
  · split at hselect
    · cases hselect
      exact selected_additional h hadd
    · exact (not_selected hselect).elim

/-- Every schema that the cursor went down to has the one that selected it as its parent. -/
theorem visit_ok {choices : List Choice} {visited : List Path} (h : t.ParentedBelow this)
    (hvisit : outcome (visit env this choices) t = (.ok visited, t')) :
    (∃ rest, visited = this :: rest) ∧
      visited.IsChain (fun selector child => t'.parent child = some selector) ∧
      ∀ q : Path, q.length ≤ this.length → t'.parent q = t.parent q := by
  induction choices generalizing this t visited with
  | nil =>
      cases hvisit
      exact ⟨⟨[], rfl⟩, .singleton _, fun _ _ => rfl⟩
  | cons choice rest ih =>
      obtain ⟨found, t₁, hchild, hrest⟩ := exists_of_bind hvisit
      cases found with
      | none =>
          cases hrest
      | some child =>
          have hselected : Selected this t child t₁ := by
            cases choice with
            | key k => exact selected_getChildSchema h hchild
            | element idx => exact selected_getChildSchemaAt h hchild
          obtain ⟨others, t₂, hothers, hreturn⟩ := exists_of_bind hrest
          cases hreturn
          obtain ⟨⟨rest', rfl⟩, hchain, habove⟩ := ih hselected.below hothers
          refine ⟨⟨_, rfl⟩, ?_, fun q hq => ?_⟩
          · refine .cons_cons ?_ hchain
            rw [habove child (Nat.le_refl _)]
            exact hselected.parent
          · rw [habove q (Nat.le_trans hq hselected.length)]
            exact hselected.above q hq

end Selection

/-- After a run of safe operations every node points to its container, the context of a
node is the text of its path, and the cursor of the parser goes up from a sub-schema to
the schema that selected it. -/
theorem run_links (env : Env D) {ops : List (Path × Op D)} {t : Tree D} (ht : t.Anchored)
    (hsafe : Safe env ops t) :
    (run env ops t).Parented ∧
      (∀ p, ((run env ops t).root.node p).isSome = true →
        (∀ i, .index i ∈ p → i < 2 ^ 32) →
        ∀ n, p.length < n → (run env ops t).context n p = .ok (pathText p)) ∧
      ∀ this choices visited t',
        outcome (visit env this choices) (run env ops t) = (.ok visited, t') →
        visited.IsChain (fun selector child => t'.parent child = some selector) := by
  have hanchored := anchored_run ht hsafe
  refine ⟨hanchored.parented, fun p hnode hp n hn => context_eq hanchored hnode hp hn, ?_⟩
  intro this choices visited t' hvisit
  have hbelow := hanchored.parented.mono (List.nil_prefix (l := this))
  exact (visit_ok hbelow hvisit).2.1

/-- A new tree. -/
theorem anchored_fresh (j : Json D) : (Tree.fresh j).Anchored where
  parented := by
    intro p s _ _
    change (if p ++ [s] = [] then none else some (p ++ [s]).dropLast) = some p
    rw [if_neg (by simp), List.dropLast_concat]
  root := rfl

/-- A text is parsed, an array grows below a new key, and an element is set. -/
def vivified : List (Path × Op ℤ) :=
  [([], .parse (.document (.map [("a", .null)])) none fun _ => onErrorThrow),
    ([.key "a"], .index 2), ([.key "a", .index 2], .set (.bool true))]

theorem safe_vivified : Safe wholeNumbers vivified (Tree.fresh .undef) := by
  refine ⟨?_, trivial, trivial, trivial⟩
  have hstart : (Context.at (Tree.fresh .undef) [] none : Context ℤ).Parented True none :=
    ⟨(anchored_fresh .undef).parented, rfl, fun _ => rfl⟩
  exact hstart.not_fillsAt _

theorem run_links_vivified :
    (run wholeNumbers vivified (Tree.fresh .undef)).context 3 [.key "a", .index 2] =
      .ok "[\"a\"][2]" := by
  have hlinks := (run_links wholeNumbers (anchored_fresh .undef) safe_vivified).2.1
  have hnode : ((run wholeNumbers vivified (Tree.fresh .undef)).root.node
      [.key "a", .index 2]).isSome = true := by
    decide
  exact hlinks _ hnode (by simp) 3 (by decide)

/-- A key is made, and the value of another tree is assigned to it. -/
def replaced : List (Path × Op ℤ) :=
  [([], .key "a"), ([.key "a"], .assign (.bool true))]

/-- The node of the key has no parent any more, and its context is that of a root. -/
theorem run_not_linked :
    ¬ (run wholeNumbers replaced (Tree.fresh .undef)).Parented ∧
      (run wholeNumbers replaced (Tree.fresh .undef)).context 2 [.key "a"] = .ok "" := by
  constructor
  · intro h
    have hparent := h [] (.key "a") List.nil_prefix (by decide)
    have hnone : (run wholeNumbers replaced (Tree.fresh .undef)).parent [.key "a"] = none := by
      decide
    rw [List.nil_append, hnone] at hparent
    cases hparent
  · rfl

end Json

end Gearbox
