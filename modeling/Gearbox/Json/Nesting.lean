import Mathlib.Data.List.Induction
import Gearbox.Json.Parser

/-!
# Nested events

Where the events of a document are. After some of them either a value is expected at a path,
or the innermost open container is the object or the array at a path, or the document is
complete. A `Spot` says which, and `Spot.after` computes it from the events alone: it is
`none` for events that are not well nested.
-/

namespace Gearbox

namespace Json

/-- What the next event of a document belongs to. -/
inductive Spot where
  /-- the value at a path, which is the root or was announced by its key -/
  | value (p : Path)
  /-- the object at a path, which is the innermost open container -/
  | object (p : Path)
  /-- the array at a path, which is the innermost open container and has `size` elements -/
  | array (p : Path) (size : ℕ)
  /-- the document is complete -/
  | finished
  deriving DecidableEq, Repr

namespace Spot

/-- The value at a path is complete. -/
def leave (p : Path) : Spot :=
  match p.getLast? with
  | none => finished
  | some (.key _) => object p.dropLast
  | some (.index i) => array p.dropLast (i + 1)

/-- The first event of the value at a path. -/
def enter (p : Path) : Event → Option Spot
  | .null => some (leave p)
  | .boolean _ => some (leave p)
  | .number _ => some (leave p)
  | .string _ => some (leave p)
  | .startMap => some (object p)
  | .startArray => some (array p 0)
  | _ => none

/-- The next event, if it may stand there. -/
def next : Spot → Event → Option Spot
  | value p, e => enter p e
  | object p, .mapKey k => some (value (p ++ [.key k]))
  | object p, .endMap => some (leave p)
  | array p _, .endArray => some (leave p)
  | array p size, e => enter (p ++ [.index size]) e
  | _, _ => none

/-- Some events. -/
def after (spot : Spot) (es : List Event) : Option Spot :=
  es.foldlM next spot

theorem leave_nil : leave [] = finished := rfl

theorem leave_key (p : Path) (k : String) : leave (p ++ [.key k]) = object p := by
  simp [leave]

theorem leave_index (p : Path) (i : ℕ) : leave (p ++ [.index i]) = array p (i + 1) := by
  simp [leave]

/-- The first event of an element. -/
theorem next_array {p : Path} {size : ℕ} {e : Event} (he : e ≠ .endArray) :
    next (array p size) e = enter (p ++ [.index size]) e := by
  cases e with
  | endArray => exact absurd rfl he
  | _ => rfl

@[simp] theorem after_nil (spot : Spot) : after spot [] = some spot := rfl

theorem after_cons (spot : Spot) (e : Event) (es : List Event) :
    after spot (e :: es) = (next spot e).bind fun spot' => after spot' es := rfl

theorem after_append (spot : Spot) (es es' : List Event) :
    after spot (es ++ es') = (after spot es).bind fun spot' => after spot' es' := by
  rw [after, List.foldlM_append]
  rfl

/-- The events of an element are those of a value at its index. -/
theorem after_element (d : Doc) (p : Path) (size : ℕ) :
    after (array p size) d.events = after (value (p ++ [.index size])) d.events := by
  cases d <;> rfl

mutual

/-- The events of a document are well nested. -/
theorem after_events : ∀ (d : Doc) (p : Path), after (value p) d.events = some (leave p)
  | .null, _ => rfl
  | .boolean _, _ => rfl
  | .number _, _ => rfl
  | .string _, _ => rfl
  | .map members, p => by
      have hstart : next (value p) .startMap = some (object p) := rfl
      rw [Doc.events, after_cons, hstart, Option.bind_some, after_append,
        after_members members p]
      rfl
  | .array elements, p => by
      have hstart : next (value p) .startArray = some (array p 0) := rfl
      rw [Doc.events, after_cons, hstart, Option.bind_some, after_append,
        after_elements elements p 0]
      rfl

theorem after_members : ∀ (members : List (String × Doc)) (p : Path),
    after (object p) (Doc.memberEvents members) = some (object p)
  | [], _ => rfl
  | (k, d) :: rest, p => by
      have hkey : next (object p) (.mapKey k) = some (value (p ++ [.key k])) := rfl
      rw [Doc.memberEvents, after_cons, hkey, Option.bind_some, after_append,
        after_events d, Option.bind_some, leave_key]
      exact after_members rest p

theorem after_elements : ∀ (elements : List Doc) (p : Path) (size : ℕ),
    after (array p size) (Doc.elementEvents elements) =
      some (array p (size + elements.length))
  | [], _, _ => rfl
  | d :: rest, p, size => by
      rw [Doc.elementEvents, after_append, after_element, after_events d, Option.bind_some,
        leave_index, after_elements rest p (size + 1), List.length_cons, Nat.add_assoc,
        Nat.add_comm 1]

end

/-- Before every event of a document it is not complete, and the event may stand there. -/
theorem exists_of_events (d : Doc) {n : ℕ} {e : Event} (he : d.events[n]? = some e) :
    ∃ spot spot', after (value []) (d.events.take n) = some spot ∧
      next spot e = some spot' := by
  have hall := after_events d []
  obtain ⟨hn, rfl⟩ := List.getElem?_eq_some_iff.mp he
  rw [← List.take_append_drop n d.events, after_append, List.drop_eq_getElem_cons hn] at hall
  obtain ⟨spot, hspot, hrest⟩ := Option.bind_eq_some_iff.mp hall
  rw [after_cons] at hrest
  obtain ⟨spot', hnext, -⟩ := Option.bind_eq_some_iff.mp hrest
  exact ⟨spot, spot', hspot, hnext⟩

end Spot

end Json

end Gearbox
