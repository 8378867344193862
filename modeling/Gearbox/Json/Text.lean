import Gearbox.Assoc.Sorted
import Gearbox.Json.Exceptions

/-!
# Texts of trees

`Json::parse` reads a text into a node, and `Json::serialize` writes a tree as a text.
When a parse throws, the node keeps what was read up to there.

`reread` is what a parse makes of the text of a tree. Booleans, strings and the structure
come back as they were, and a number is read from its printed form. There is no text of a
tree with an array of `2 ^ 32` or more elements, since the generator does not end for it.
The trees of the source have the keys of their objects in the order of `std::map`, which is
`Ordered`.
-/

namespace Gearbox

namespace Json

open Refinement

variable {D : Type}

/-- `Json::parse` of a node without a schema: how it ends, and what the node holds then. -/
def parseInto (env : Env D) (text : Text) : Except Failure Unit × Json D :=
  let r := parse env.throwing text none
  (r.1, r.2.json.root)

/-- The tree of a text, if it can be parsed. -/
def complete? (env : Env D) : Text → Option (Json D)
  | .document d => read env.throwing none d
  | .broken _ _ => none

mutual

/-- `Json::Generator::generate`; the loop over an array counts in `unsigned int`. -/
def generate (env : Env D) : Json D → Except Failure Doc
  | .undef => .ok .null
  | .bool b => .ok (.boolean b)
  | .int n => .ok (.number (toString n))
  | .double x => .ok (.number (env.print x))
  | .string v => .ok (.string v)
  | .object o => do return .map (← generateObject env o)
  | .array a => do
    let elements ← generateArray env a
    if a.length < 2 ^ 32 then return .array elements else throw .diverges

def generateObject (env : Env D) :
    List (String × Json D) → Except Failure (List (String × Doc))
  | [] => .ok []
  | (k, j) :: rest => do return (k, ← generate env j) :: (← generateObject env rest)

def generateArray (env : Env D) : List (Json D) → Except Failure (List Doc)
  | [] => .ok []
  | j :: rest => do return (← generate env j) :: (← generateArray env rest)

end

/-- `Json::serialize` -/
def serialize (env : Env D) (j : Json D) : Except Failure Text := do
  return .document (← generate env j)

/-- A new node that a text is parsed into. -/
def parsed (env : Env D) (text : Text) : Except Failure (Json D) := do
  (parseInto env text).1
  return (parseInto env text).2

/-- A new node that the text of a tree is parsed into. -/
def resent (env : Env D) (j : Json D) : Except Failure (Json D) := do
  parsed env (← serialize env j)

mutual

/-- The tree that is read from the text of a tree. -/
def reread (env : Env D) : Json D → Option (Json D)
  | .int n => value? (lexNumber env (toString n))
  | .double x => value? (lexNumber env (env.print x))
  | .object o => (rereadMembers env o).map .object
  | .array a =>
    if a.length < 2 ^ 32 then (rereadElements env a).map .array else none
  | j => some j

def rereadMembers (env : Env D) :
    List (String × Json D) → Option (List (String × Json D))
  | [] => some []
  | (k, j) :: rest => do return (k, ← reread env j) :: (← rereadMembers env rest)

def rereadElements (env : Env D) : List (Json D) → Option (List (Json D))
  | [] => some []
  | j :: rest => do return (← reread env j) :: (← rereadElements env rest)

end

mutual

/-- Every object has its keys in order. -/
def Ordered : Json D → Prop
  | .object o => Assoc.Sorted o ∧ OrderedMembers o
  | .array a => OrderedElements a
  | _ => True

def OrderedMembers : List (String × Json D) → Prop
  | [] => True
  | (_, j) :: rest => Ordered j ∧ OrderedMembers rest

def OrderedElements : List (Json D) → Prop
  | [] => True
  | j :: rest => Ordered j ∧ OrderedElements rest

end

theorem orderedMembers_iff (o : List (String × Json D)) :
    OrderedMembers o ↔ ∀ m ∈ o, Ordered m.2 := by
  induction o with
  | nil =>
      simp [OrderedMembers]
  | cons m rest ih =>
      obtain ⟨k, j⟩ := m
      simp [OrderedMembers, ih]

theorem orderedElements_iff (a : List (Json D)) :
    OrderedElements a ↔ ∀ j ∈ a, Ordered j := by
  induction a with
  | nil =>
      simp [OrderedElements]
  | cons j rest ih =>
      simp [OrderedElements, ih]

section Parse

variable (env : Env D)

/-- A parse either ends with the whole tree or throws. -/
theorem parseInto_cases (text : Text) :
    (∃ j, complete? env text = some j ∧ parseInto env text = (.ok (), j)) ∨
      complete? env text = none ∧ ∃ e, (parseInto env text).1 = .error e := by
  cases text with
  | document d =>
      rcases (meets_parse_none env.throwing_errHandler d).cases with
        ⟨e, c, hparse, hread, -⟩ | ⟨u, j, c, hparse, hread, -, hroot⟩
      · right
        exact ⟨hread, e, by rw [parseInto, hparse]⟩
      · left
        refine ⟨j, hread, ?_⟩
        simp only [parseInto, hparse, hroot]
  | broken d n =>
      right
      obtain ⟨e, he⟩ := parse_broken env.throwing d n none
      exact ⟨rfl, e, he⟩

theorem parseInto_of_complete {text : Text} {j : Json D}
    (h : complete? env text = some j) : parseInto env text = (.ok (), j) := by
  rcases parseInto_cases env text with ⟨i, hi, hparse⟩ | ⟨hnone, -⟩
  · rw [h] at hi
    cases hi
    exact hparse
  · rw [h] at hnone
    cases hnone

theorem parseInto_of_none {text : Text} (h : complete? env text = none) :
    ∃ e, (parseInto env text).1 = .error e := by
  rcases parseInto_cases env text with ⟨i, hi, -⟩ | ⟨-, he⟩
  · rw [h] at hi
    cases hi
  · exact he

theorem isException_parseInto {text : Text} {x : Failure}
    (h : (parseInto env text).1 = .error x) : x.isException :=
  isException_parse h

theorem value?_parsed (text : Text) : value? (parsed env text) = complete? env text := by
  rcases parseInto_cases env text with ⟨j, hj, hparse⟩ | ⟨hnone, e, he⟩
  · rw [parsed, hparse, hj]
    rfl
  · rw [parsed, he, hnone]
    rfl

end Parse

section Read

mutual

/-- The parser keeps the keys of an object in order. -/
theorem ordered_read (env : Env D) : ∀ (d : Doc) {j : Json D}, read env none d = some j →
    j.Ordered
  | .null, j, h => by
      cases h
      trivial
  | .boolean b, j, h => by
      cases h
      trivial
  | .number lexeme, j, h => by
      obtain ⟨i, hi, hj⟩ := Option.bind_eq_some_iff.mp h
      cases hj
      rcases lexNumber_scalar env (value?_eq_some.mp hi) with ⟨m, rfl⟩ | ⟨x, rfl⟩
      · trivial
      · trivial
  | .string v, j, h => by
      cases h
      trivial
  | .map members, j, h => by
      simp only [read, require, readObject, Option.bind_eq_bind, Option.bind_some,
        Option.bind_eq_some_iff, Option.some.injEq] at h
      obtain ⟨o, ho, rfl⟩ := h
      have hnil : OrderedMembers ([] : List (String × Json D)) := trivial
      exact orderedMembers_read env members Assoc.sorted_nil hnil ho
  | .array elements, j, h => by
      simp only [read, require, Option.bind_eq_bind, Option.bind_some, Option.pure_def,
        Option.bind_eq_some_iff, Option.some.injEq] at h
      obtain ⟨a, ha, rfl⟩ := h
      have hnil : OrderedElements ([] : List (Json D)) := trivial
      exact orderedElements_read env elements hnil ha

theorem orderedMembers_read (env : Env D) : ∀ (members : List (String × Doc))
    {o o' : List (String × Json D)}, Assoc.Sorted o → OrderedMembers o →
    readMembers env none o members = some o' → Assoc.Sorted o' ∧ OrderedMembers o'
  | [], o, o', hsorted, ho, h => by
      cases h
      exact ⟨hsorted, ho⟩
  | (k, d) :: rest, o, o', hsorted, ho, h => by
      simp only [readMembers, descend, Option.bind_eq_bind, Option.bind_some] at h
      split at h
      · cases h
      · rename_i hk
        obtain ⟨j, hj, hrest⟩ := Option.bind_eq_some_iff.mp h
        have hnone : o.lookup k = none := Option.not_isSome_iff_eq_none.mp hk
        have ho' : OrderedMembers (Assoc.insertKey k j o) := by
          rw [orderedMembers_iff] at ho ⊢
          intro m hm
          rcases Assoc.mem_insertKey.mp hm with rfl | hm
          · exact ordered_read env d hj
          · exact ho m hm
        exact orderedMembers_read env rest (Assoc.sorted_insertKey hsorted hnone) ho' hrest

theorem orderedElements_read (env : Env D) : ∀ (elements : List Doc)
    {a a' : List (Json D)}, OrderedElements a →
    readElements env none a elements = some a' → OrderedElements a'
  | [], a, a', ha, h => by
      cases h
      exact ha
  | d :: rest, a, a', ha, h => by
      simp only [readElements, require, descend, Option.bind_eq_bind, Option.bind_some,
        Option.bind_eq_some_iff] at h
      obtain ⟨j, hj, hrest⟩ := h
      have hj' := ordered_read env d hj
      have ha' : OrderedElements (a ++ [j]) := by
        rw [orderedElements_iff] at ha ⊢
        simpa [or_imp, forall_and, hj'] using ha
      exact orderedElements_read env rest ha' hrest

end

theorem ordered_complete? {env : Env D} {text : Text} {j : Json D}
    (h : complete? env text = some j) : j.Ordered := by
  cases text with
  | document d => exact ordered_read env.throwing d h
  | broken d n => cases h

end Read

section Generate

variable {env : Env D}

theorem value?_generateObject_cons (k : String) (j : Json D) (rest : List (String × Json D)) :
    value? (generateObject env ((k, j) :: rest)) =
      (value? (generate env j)).bind fun d =>
        (value? (generateObject env rest)).map ((k, d) :: ·) := by
  rw [generateObject]
  cases generate env j with
  | error e => rfl
  | ok d =>
      cases generateObject env rest with
      | error e => rfl
      | ok ds => rfl

theorem value?_generateArray_cons (j : Json D) (rest : List (Json D)) :
    value? (generateArray env (j :: rest)) =
      (value? (generate env j)).bind fun d =>
        (value? (generateArray env rest)).map (d :: ·) := by
  rw [generateArray]
  cases generate env j with
  | error e => rfl
  | ok d =>
      cases generateArray env rest with
      | error e => rfl
      | ok ds => rfl

mutual

/-- The parser reads what the generator wrote. -/
theorem read_generate : ∀ {j : Json D}, Ordered j →
    (value? (generate env j)).bind (read env.throwing none) = reread env j
  | .undef, _ => rfl
  | .bool _, _ => rfl
  | .int n, _ => by
      rw [generate, reread, value?, Option.bind_some, read]
      cases hvalue : value? (lexNumber env (toString n)) with
      | none => exact congrArg (Option.bind · _) hvalue
      | some i => exact congrArg (Option.bind · _) hvalue
  | .double x, _ => by
      rw [generate, reread, value?, Option.bind_some, read]
      cases hvalue : value? (lexNumber env (env.print x)) with
      | none => exact congrArg (Option.bind · _) hvalue
      | some i => exact congrArg (Option.bind · _) hvalue
  | .string _, _ => rfl
  | .object o, h => by
      rw [Ordered] at h
      have hmembers := readMembers_generate [] h.1 h.2 fun _ he => nomatch he
      rw [generate, reread, value?_bind]
      cases hgenerate : value? (generateObject env o) with
      | none =>
          rw [hgenerate, Option.bind_none, eq_comm, Option.map_eq_none_iff] at hmembers
          rw [hmembers]
          rfl
      | some ds =>
          rw [hgenerate, Option.bind_some] at hmembers
          simp only [Option.bind_some, value?, pure, Except.pure, read, hmembers]
          cases rereadMembers env o with
          | none => rfl
          | some o' => rfl
  | .array a, h => by
      rw [Ordered] at h
      have helements := readElements_generate [] h
      rw [generate, reread, value?_bind]
      cases hgenerate : value? (generateArray env a) with
      | none =>
          rw [hgenerate, Option.bind_none, eq_comm, Option.map_eq_none_iff] at helements
          rw [helements, Option.map_none, ite_self]
          rfl
      | some ds =>
          rw [hgenerate, Option.bind_some] at helements
          rw [Option.bind_some]
          by_cases hlength : a.length < 2 ^ 32
          · rw [if_pos hlength, if_pos hlength]
            simp only [Option.bind_some, value?, pure, Except.pure, read, helements]
            cases rereadElements env a with
            | none => rfl
            | some a' => rfl
          · rw [if_neg hlength, if_neg hlength]
            rfl

theorem readMembers_generate : ∀ {o : List (String × Json D)}
    (acc : List (String × Json D)), Assoc.Sorted o → OrderedMembers o →
    (∀ e ∈ acc, ∀ m ∈ o, e.1 < m.1) →
    (value? (generateObject env o)).bind (readMembers env.throwing none acc) =
      (rereadMembers env o).map (acc ++ ·)
  | [], acc, _, _, _ => by
      simp [generateObject, value?, readMembers, rereadMembers]
  | (k, j) :: rest, acc, hsorted, hordered, hlt => by
      obtain ⟨hk, hrest⟩ := Assoc.sorted_cons.mp hsorted
      rw [OrderedMembers] at hordered
      have hacc : ∀ e ∈ acc, e.1 < k := fun e he => hlt e he (k, j) List.mem_cons_self
      have hnone : acc.lookup k = none := Assoc.lookup_eq_none_of_gt hacc
      have hj := read_generate hordered.1
      have hmembers := fun acc' => readMembers_generate acc' hrest hordered.2
      rw [value?_generateObject_cons, rereadMembers, ← hj]
      cases hgenerate : value? (generate env j) with
      | none => rfl
      | some d =>
          cases hgenerates : value? (generateObject env rest) with
          | none =>
              have hnil := hmembers [] fun _ he => nomatch he
              rw [hgenerates, Option.bind_none, eq_comm, Option.map_eq_none_iff] at hnil
              rw [hnil, Option.bind_some, Option.bind_some]
              cases read env.throwing none d with
              | none => rfl
              | some j' => rfl
          | some ds =>
              simp only [Option.bind_some, Option.map_some]
              rw [readMembers]
              simp only [descend, Option.bind_eq_bind, Option.bind_some, hnone,
                Option.isSome_none, Bool.false_eq_true, if_false]
              cases read env.throwing none d with
              | none => rfl
              | some j' =>
                  have hnext : ∀ e ∈ acc ++ [(k, j')], ∀ m ∈ rest, e.1 < m.1 := by
                    intro e he m hm
                    rcases List.mem_append.mp he with he | he
                    · exact hlt e he m (List.mem_cons_of_mem _ hm)
                    · rw [List.mem_singleton.mp he]
                      exact hk m hm
                  have hall := hmembers (acc ++ [(k, j')]) hnext
                  rw [hgenerates, Option.bind_some] at hall
                  rw [Option.bind_some, Assoc.insertKey_eq_append hacc, hall]
                  cases rereadMembers env rest with
                  | none => rfl
                  | some rest' => simp

theorem readElements_generate : ∀ {a : List (Json D)} (acc : List (Json D)),
    OrderedElements a →
    (value? (generateArray env a)).bind (readElements env.throwing none acc) =
      (rereadElements env a).map (acc ++ ·)
  | [], acc, _ => by
      simp [generateArray, value?, readElements, rereadElements]
  | j :: rest, acc, h => by
      rw [OrderedElements] at h
      have hj := read_generate h.1
      have helements := fun acc' => readElements_generate acc' h.2
      rw [value?_generateArray_cons, rereadElements, ← hj]
      cases hgenerate : value? (generate env j) with
      | none => rfl
      | some d =>
          cases hgenerates : value? (generateArray env rest) with
          | none =>
              have hnil := helements []
              rw [hgenerates, Option.bind_none, eq_comm, Option.map_eq_none_iff] at hnil
              rw [hnil, Option.bind_some, Option.bind_some]
              cases read env.throwing none d with
              | none => rfl
              | some j' => rfl
          | some ds =>
              simp only [Option.bind_some, Option.map_some]
              rw [readElements]
              simp only [require, descend, Option.bind_eq_bind, Option.bind_some]
              cases read env.throwing none d with
              | none => rfl
              | some j' =>
                  have hall := helements (acc ++ [j'])
                  rw [hgenerates, Option.bind_some] at hall
                  rw [Option.bind_some, hall]
                  cases rereadElements env rest with
                  | none => rfl
                  | some rest' => simp

end

/-- What a text of a tree is parsed to. -/
theorem value?_resent {j : Json D} (h : Ordered j) :
    value? (resent env j) = reread env j := by
  rw [← read_generate h, resent, value?_bind, serialize, value?_bind]
  cases generate env j with
  | error e => rfl
  | ok d => exact value?_parsed env (.document d)

/-- The order of the keys stays. -/
theorem Ordered.reread {j j' : Json D} (h : Ordered j) (hj' : reread env j = some j') :
    Ordered j' := by
  rw [← read_generate h] at hj'
  obtain ⟨d, -, hd⟩ := Option.bind_eq_some_iff.mp hj'
  exact ordered_read env.throwing d hd

end Generate

section Reread

variable {env : Env D}

theorem rereadMembers_eq_some {o o' : List (String × Json D)} :
    rereadMembers env o = some o' ↔
      Assoc.Related (fun j j' => reread env j = some j') o o' := by
  induction o generalizing o' with
  | nil =>
      rw [rereadMembers, Option.some.injEq]
      constructor
      · rintro rfl
        exact .nil
      · intro h
        cases h
        rfl
  | cons m rest ih =>
      obtain ⟨k, j⟩ := m
      simp only [rereadMembers, Option.bind_eq_bind, Option.bind_eq_some_iff]
      constructor
      · rintro ⟨j', hj', rest', hrest', h⟩
        cases h
        exact .cons ⟨rfl, hj'⟩ (ih.mp hrest')
      · rintro (_ | ⟨⟨hk, hj'⟩, hrest'⟩)
        refine ⟨_, hj', _, ih.mpr hrest', ?_⟩
        change k = _ at hk
        rw [hk]
        rfl

/-- An object that is made by assignments is read from its text if the values are. -/
theorem reread_assignAll {fields fields' : List (String × Option (Json D))}
    (h : Assoc.Related (Option.Rel fun j j' => reread env j = some j') fields fields') :
    reread env (.object (Assoc.assignAll fields [])) =
      some (.object (Assoc.assignAll fields' [])) := by
  have hmembers := rereadMembers_eq_some.mpr (Assoc.Related.assignAll h .nil)
  rw [reread, hmembers, Option.map_some]

/-- Every member of an object that is read from its text is read from its text. -/
theorem reread_member {o : List (String × Json D)} {j' v : Json D} {k : String}
    (h : reread env (.object o) = some j') (hv : o.lookup k = some v) :
    ∃ v', reread env v = some v' := by
  rw [reread, Option.map_eq_some_iff] at h
  obtain ⟨o', ho', -⟩ := h
  have hlookup := (rereadMembers_eq_some.mp ho').lookup k
  rw [hv] at hlookup
  generalize o'.lookup k = found at hlookup
  cases hlookup with
  | some hv' => exact ⟨_, hv'⟩

/-- The strings of an array, which has to be short. -/
theorem reread_strings {a : List String} (h : a.length < 2 ^ 32) :
    reread env (.array (a.map .string)) = some (.array (a.map .string)) := by
  have helements : ∀ l : List String,
      rereadElements env (l.map .string) = some (l.map .string) := by
    intro l
    induction l with
    | nil => rfl
    | cons v rest ih => simp [rereadElements, reread, ih]
  rw [reread, List.length_map, if_pos h, helements, Option.map_some]

theorem ordered_strings (texts : List String) :
    (array (texts.map string) : Json D).Ordered := by
  rw [Ordered, orderedElements_iff, List.forall_mem_map]
  exact fun _ _ => trivial

/-- An object that is made by assignments has its keys in order. -/
theorem ordered_assignAll {fields : List (String × Option (Json D))}
    (h : ∀ k j, (k, some j) ∈ fields → Ordered j) :
    Ordered (.object (Assoc.assignAll fields [])) := by
  rw [Ordered, orderedMembers_iff]
  exact ⟨Assoc.sorted_assignAll fields Assoc.sorted_nil, Assoc.forall_assignAll h⟩

end Reread

end Json

end Gearbox
