import Gearbox.Json.Documents
import Gearbox.Json.Nesting
import Gearbox.Json.Roots

/-!
# The cursors of a parse

Where the two cursors of a parse are after any number of events. The document cursor is at
the spot that the events say, and the schema cursor at the sub-schema that the steps to this
spot select one after another. A `Trail` is what makes the way back right: the parent pointers
of the document on the way to the spot, and the links from each sub-schema on this way to the
one that selected it.
-/

namespace Gearbox

namespace Json

open Refinement Refinement.Verdict

variable {D : Type}

namespace Place

/-- The sub-schema that a selection leads to. -/
def child (place : Place D) (sel : Sel) : Option (Place D) :=
  (place.schema.child sel).map fun c => ⟨place.sels ++ [sel], c⟩

/-- The sub-schema for a node that a container holds. -/
def select (place : Place D) : Step → Option (Place D)
  | .key k => (place.schema.selectKey k).bind place.child
  | .index i => (place.schema.selectIndex i).bind place.child

/-- The sub-schema for the node at a path. -/
def follow (place : Place D) (p : Path) : Option (Place D) :=
  p.foldlM select place

theorem follow_snoc (place : Place D) (p : Path) (st : Step) :
    place.follow (p ++ [st]) = (place.follow p).bind fun place => place.select st := by
  rw [follow, List.foldlM_append]
  simp [follow]

theorem child_of_enter {place child : Place D} {sel : Sel}
    (h : place.enter sel = passed child) : place.child sel = some child := by
  rw [enter] at h
  rw [Place.child]
  cases hc : place.schema.child sel with
  | none =>
      rw [hc] at h
      cases h
  | some c =>
      rw [hc] at h
      cases h
      rfl

section Judge

variable {env : Env D} {place child : Place D}

theorem child_of_judgeAdditional {message : String}
    (h : judgeAdditional env place message = passed child) :
    place.schema.selectAdditional.bind place.child = some child := by
  rw [judgeAdditional] at h
  cases hc : place.schema.child .additional with
  | none =>
      rw [hc, absent] at h
      cases hr : place.handler env message <;> simp [hr] at h
  | some c =>
      rw [hc] at h
      rw [selectAdditional, hc]
      exact child_of_enter h

theorem select_of_judgeKey {k : String} (h : judgeKey env place k = passed child) :
    place.select (.key k) = some child := by
  rw [select, selectKey]
  rw [judgeKey] at h
  split at h
  · rename_i hproperty
    rw [if_pos hproperty]
    exact child_of_enter h
  · rename_i hproperty
    rw [if_neg hproperty]
    split at h
    · exact child_of_judgeAdditional h
    · exact child_of_judgeAdditional h

theorem child_of_judgeIndex {idx : ℤ} (h : judgeIndex env place idx = passed child) :
    (place.schema.selectIndex idx).bind place.child = some child := by
  cases hj : place.schema.member "items" with
  | none =>
      simp only [judgeIndex, hj] at h
      simp only [selectIndex, hj]
      exact child_of_judgeAdditional h
  | some j =>
      simp only [judgeIndex, hj] at h
      simp only [selectIndex, hj]
      by_cases h0 : 0 ≤ j.length
      · rw [if_pos h0] at h ⊢
        by_cases hle : j.length ≤ idx
        · rw [if_pos hle] at h ⊢
          exact child_of_judgeAdditional h
        · rw [if_neg hle] at h ⊢
          by_cases hneg : idx < 0
          · rw [if_pos hneg] at h
            cases h
          · rw [if_neg hneg] at h ⊢
            exact child_of_enter h
      · rw [if_neg h0] at h ⊢
        exact child_of_enter h

end Judge

end Place

section Index

variable {s : Json D} {size : ℕ}

theorem toInt32_of_lt (h : size < 2 ^ 31) : toInt32 size = size :=
  Int.bmod_eq_of_le (by omega) (by omega)

/-- An index that is an `int`, where the schema has a list of schemas. -/
theorem selectIndex_toInt32 (h : s.tuple.isSome → size < 2 ^ 31) :
    s.selectIndex (toInt32 size) = s.selectIndex size := by
  rw [selectIndex, selectIndex]
  cases hj : s.member "items" with
  | none => rfl
  | some j =>
      dsimp only
      by_cases h0 : 0 ≤ j.length
      · rw [toInt32_of_lt (h (by simp [tuple, hj, Option.filter, h0]))]
      · rw [if_neg h0, if_neg h0]

/-- In an array that was not too large there is no element at an index that is. -/
theorem lt_of_judgeIndex {env : Env D} {place child : Place D}
    (htuple : place.schema.tuple.isSome) (hsize : size ≤ 2 ^ 31)
    (h : judgeIndex env place (toInt32 size) = passed child) : size < 2 ^ 31 := by
  by_contra hlarge
  obtain rfl : size = 2 ^ 31 := by omega
  obtain ⟨j, hj⟩ := Option.isSome_iff_exists.mp htuple
  obtain ⟨hitems, h0⟩ := Option.filter_eq_some_iff.mp hj
  have hlength : 0 ≤ j.length := of_decide_eq_true h0
  have hindex : toInt32 ((2 ^ 31 : ℕ) : ℤ) = -2 ^ 31 := by decide
  have hlt : ¬ j.length ≤ -2 ^ 31 := by omega
  rw [judgeIndex, hitems, hindex] at h
  dsimp only at h
  rw [if_pos hlength, if_neg hlt, if_pos (by decide)] at h
  cases h

end Index

/-- The container has a node for the step, as its newest one. -/
def Carries : Json D → Step → Prop
  | .object _, .key _ => True
  | .array a, .index i => a.length = i + 1
  | _, _ => False

theorem carries_modifyStep {j : Json D} {st : Step} (h : Carries j st) (st' : Step)
    (f : Json D → Json D) : Carries (modifyStep st' f j) st := by
  cases j with
  | object o =>
      cases st with
      | key k => cases st' <;> exact trivial
      | index i => exact h.elim
  | array a =>
      cases st with
      | key k => exact h.elim
      | index i =>
          cases st' with
          | key k => exact h
          | index i' => exact (List.length_modify ..).trans h
  | _ => exact h.elim

section Trail

variable {env : Env D} {T : Json D} {root : Option (Place D)} {c c' : Context D} {p : Path}
  {place child : Option (Place D)}

/-- The sub-schema of a container selected the one for a node in it, which is linked to it. -/
inductive Chosen (env : Env D) (T : Json D) (t : Tree D) :
    Option (Place D) → Step → Option (Place D) → Prop where
  | schemaless (st : Step) : Chosen env T t none st none
  | selected {place child : Place D} {st : Step} {sel : Sel}
      (holds : Holds env T t place.sels place.schema) (select : place.select st = some child)
      (sels : child.sels = place.sels ++ [sel]) (linked : Linked t place.sels sel)
      (bound : ∀ i, st = .index i → place.schema.tuple.isSome → i < 2 ^ 31) :
      Chosen env T t (some place) st (some child)

theorem Chosen.mono {t t' : Tree D} {st : Step} (h : Chosen env T t place st child)
    (ht : Extends env t t') : Chosen env T t' place st child := by
  cases h with
  | schemaless => exact .schemaless st
  | selected holds select sels linked bound =>
      exact .selected (holds.mono ht) select sels (ht.linked _ _ linked) bound

/-- The way back from the path: the open containers and their sub-schemas. -/
inductive Trail (env : Env D) (T : Json D) (root : Option (Place D)) (c : Context D) :
    Path → Option (Place D) → Prop where
  | root : Trail env T root c [] root
  | step {p : Path} {place child : Option (Place D)} {st : Step} {j : Json D}
      (above : Trail env T root c p place) (node : c.json.root.node p = some j)
      (carries : Carries j st) (parent : c.json.parent (p ++ [st]) = some p)
      (chosen : Chosen env T c.store place st child) :
      Trail env T root c (p ++ [st]) child

/-- The node at the path was changed, or something below it. -/
structure Below (env : Env D) (c : Context D) (p : Path) (c' : Context D) : Prop where
  root : ∃ j, c'.json.root = c.json.root.modify p fun _ => j
  parent : ∀ q : Path, q.length ≤ p.length → c'.json.parent q = c.json.parent q
  kept : Kept env c c'

theorem Trail.mono {q : Path} (h : Trail env T root c q place) (hq : q <+: p)
    (hbelow : Below env c p c') : Trail env T root c' q place := by
  induction h with
  | root => exact .root
  | @step q place child st j _ hnode hcarries hparent hchosen ih =>
      obtain ⟨r, rfl⟩ := hq
      obtain ⟨v, hroot⟩ := hbelow.root
      have habove : q <+: q ++ [st] ++ r := by
        rw [List.append_assoc]
        exact List.prefix_append _ _
      have hnode' : c'.json.root.node q =
          some (modifyStep st (modify r fun _ => v) j) := by
        rw [hroot, List.append_assoc, modify_append, node_modify, hnode]
        rfl
      have hparent' : c'.json.parent (q ++ [st]) = some q := by
        rw [hbelow.parent _ (by simp), hparent]
      exact .step (ih habove) hnode' (carries_modifyStep hcarries st _) hparent'
        (hchosen.mono hbelow.kept)

/-- The schema cursor was selected step by step. -/
theorem Trail.follow (h : Trail env T root c p place) {last : Place D}
    (hlast : place = some last) :
    ∃ first, root = some first ∧ first.follow p = some last := by
  induction h generalizing last with
  | root => exact ⟨last, hlast, rfl⟩
  | step _ _ _ _ hchosen ih =>
      cases hchosen with
      | schemaless => cases hlast
      | selected _ hselect _ _ _ =>
          cases hlast
          obtain ⟨first, hroot, hfollow⟩ := ih rfl
          refine ⟨first, hroot, ?_⟩
          rw [Place.follow_snoc, hfollow]
          exact hselect

/-- There is a sub-schema on the whole way if there is a schema. -/
theorem Trail.root_eq_none (h : Trail env T root c p place) (hplace : place = none) :
    root = none := by
  induction h with
  | root => exact hplace
  | step _ _ _ _ hchosen ih =>
      cases hchosen with
      | schemaless => exact ih rfl
      | selected => cases hplace

end Trail

section Stands

variable {env : Env D} {T : Json D} {root : Option (Place D)} {c c' : Context D} {p : Path}
  {place child : Option (Place D)}

/-- The cursors are at the node at the path and at its sub-schema. -/
structure Located (env : Env D) (T : Json D) (root : Option (Place D)) (c : Context D)
    (p : Path) (place : Option (Place D)) : Prop where
  trail : Trail env T root c p place
  points : Points env T c place
  cursor : c.cursor = some p
  jsonRoot : c.json.Topmost
  schemaRoot : c.Topmost

/-- The cursors are where the spot says. -/
def Stands (env : Env D) (T : Json D) (root : Option (Place D)) (c : Context D) : Spot → Prop
  | .value p => ∃ place, Located env T root c p place ∧ c.json.root.node p = some .undef
  | .object p => ∃ place o, Located env T root c p place ∧
      c.json.root.node p = some (.object o)
  | .array p size => ∃ place a, Located env T root c p place ∧
      c.json.root.node p = some (.array a) ∧ a.length = size ∧
      ∀ pl, place = some pl → pl.schema.tuple.isSome → size ≤ 2 ^ 31
  | .finished => c.cursor = none ∧ c.schema = none

theorem Located.inside {j : Json D} (h : Located env T root c p place)
    (hinside : Inside c p j c') (hkept : Kept env c c') (htop : c'.Topmost) :
    Located env T root c' p place where
  trail := h.trail.mono (List.prefix_refl p) ⟨⟨j, hinside.root⟩, hinside.parent, hkept⟩
  points := h.points.mono hinside.schema hkept
  cursor := hinside.cursor
  jsonRoot := (hinside.parent [] (Nat.zero_le _)).trans h.jsonRoot
  schemaRoot := htop

/-- The schema cursor goes back to the sub-schema of the container. -/
theorem Chosen.up {st : Step} (h : Chosen env T c'.store place st child)
    (hpoints : Points env T c child) (hschema : c'.schema = c.schema.bind c'.store.parent) :
    Points env T c' place := by
  cases h with
  | schemaless =>
      have hnone : c.schema = none := hpoints
      rw [hnone] at hschema
      exact hschema
  | selected holds _ hsels hlinked _ =>
      rw [hpoints.1, Option.bind_some, hsels] at hschema
      exact ⟨hschema.trans hlinked, holds⟩

/-- The value at the path is complete. -/
theorem Located.leave {j : Json D} (hroot : ∀ first, root = some first → first.sels = [])
    (h : Located env T root c p place) (hdone : Done c p j c') (hkept : Kept env c c')
    (htop : c'.Topmost) : Stands env T root c' (Spot.leave p) := by
  have hjson : c'.json.Topmost := (hdone.parent [] (Nat.zero_le _)).trans h.jsonRoot
  have hcursor : c'.cursor = c'.json.parent p :=
    hdone.cursor.trans (hdone.parent p (Nat.le_refl _)).symm
  have hpoints := h.points
  have htrail : Trail env T root c' p place :=
    h.trail.mono (List.prefix_refl p) ⟨⟨j, hdone.root⟩, hdone.parent, hkept⟩
  cases htrail with
  | root =>
      rw [Spot.leave_nil]
      refine ⟨hcursor.trans hjson, ?_⟩
      rw [hdone.schema]
      cases root with
      | none =>
          have hnone : c.schema = none := hpoints
          rw [hnone, Option.bind_none]
      | some first =>
          rw [hpoints.1, hroot first rfl, Option.bind_some]
          exact htop
  | @step q above child st j above' hnode hcarries hparent hchosen =>
      have hlocated : Located env T root c' q above := {
        trail := above'
        points := hchosen.up hpoints hdone.schema
        cursor := hcursor.trans hparent
        jsonRoot := hjson
        schemaRoot := htop }
      cases st with
      | key k =>
          rw [Spot.leave_key]
          cases j with
          | object o => exact ⟨above, o, hlocated, hnode⟩
          | _ => exact hcarries.elim
      | index i =>
          rw [Spot.leave_index]
          cases j with
          | array a =>
              refine ⟨above, a, hlocated, hnode, hcarries, ?_⟩
              rintro pl rfl htuple
              cases hchosen with
              | selected _ _ _ _ bound => exact bound i rfl htuple
          | _ => exact hcarries.elim

/-- A place for a value was made. -/
theorem Located.opened {st : Step} {j j' : Json D} (h : Located env T root c p place)
    (hopened : Opened env T c p st j child c') (hkept : Kept env c c') (htop : c'.Topmost)
    (hnode : c.json.root.node p = some j') (hcarries : Carries j st)
    (hselect : ∀ pl, place = some pl → ∃ ch, child = some ch ∧ pl.select st = some ch ∧
      ∀ i, st = .index i → pl.schema.tuple.isSome → i < 2 ^ 31) :
    Located env T root c' (p ++ [st]) child := by
  have hchosen : Chosen env T c'.store place st child := by
    have hdescends := hopened.descends
    have hpoints := h.points
    cases place with
    | none =>
        have hnone : c.schema = none := hpoints
        cases child with
        | none => exact .schemaless st
        | some ch =>
            obtain ⟨sels, sel, hsome, -⟩ := hdescends
            rw [hnone] at hsome
            cases hsome
    | some pl =>
        obtain ⟨ch, rfl, hch, hbound⟩ := hselect pl rfl
        obtain ⟨sels, sel, hsome, hsels, -, -, hlinked⟩ := hdescends
        rw [hpoints.1] at hsome
        obtain rfl := paths_injective (Option.some.inj hsome)
        exact .selected (hpoints.2.mono hkept) hch hsels hlinked hbound
  have hnode' : c'.json.root.node p = some j := by
    rw [hopened.root, node_modify, hnode]
    rfl
  exact {
    trail := .step (h.trail.mono (List.prefix_refl p)
      ⟨⟨j, hopened.root⟩, hopened.parent, hkept⟩) hnode' hcarries hopened.up hchosen
    points := hopened.descends.points
    cursor := hopened.slot.cursor
    jsonRoot := (hopened.parent [] (Nat.zero_le _)).trans h.jsonRoot
    schemaRoot := htop }

end Stands

section Steps

variable {env : Env D} {T : Json D} {root : Option (Place D)} {c c' : Context D} {p : Path}
  {place : Option (Place D)} {e : Event} {spot spot' : Spot}

/-- The first callback for a value looks for the place for it. -/
theorem callback_of_enter (env : Env D) {q : Path} (hnext : Spot.enter q e = some spot') :
    ∃ f, callback env e = getObj env >>= f ∧ f none = pure false := by
  cases e with
  | mapKey k => cases hnext
  | endMap => cases hnext
  | endArray => cases hnext
  | _ => exact ⟨_, rfl, rfl⟩

/-- The sub-schema for a key. -/
theorem selected_of_pursue {k : String} {child : Option (Place D)}
    (h : (pursue place fun place => judgeKey env place k) = passed child) :
    ∀ pl, place = some pl → ∃ ch, child = some ch ∧ pl.select (.key k) = some ch ∧
      ∀ i, Step.key k = .index i → pl.schema.tuple.isSome → i < 2 ^ 31 := by
  rintro pl rfl
  obtain ⟨ch, hjudge, hch⟩ := bind_eq_passed.mp h
  cases hch
  exact ⟨ch, rfl, Place.select_of_judgeKey hjudge, nofun⟩

/-- The sub-schema for an element of an array that was not too large. -/
theorem selected_of_index {size : ℕ} {child : Option (Place D)}
    (hsize : ∀ pl, place = some pl → pl.schema.tuple.isSome → size ≤ 2 ^ 31)
    (h : (pursue place fun place => judgeIndex env place (toInt32 size)) = passed child) :
    ∀ pl, place = some pl → ∃ ch, child = some ch ∧ pl.select (.index size) = some ch ∧
      ∀ i, Step.index size = .index i → pl.schema.tuple.isSome → i < 2 ^ 31 := by
  rintro pl rfl
  obtain ⟨ch, hjudge, hch⟩ := bind_eq_passed.mp h
  cases hch
  have hlt : pl.schema.tuple.isSome → size < 2 ^ 31 :=
    fun htuple => lt_of_judgeIndex htuple (hsize pl rfl htuple) hjudge
  refine ⟨ch, rfl, ?_, ?_⟩
  · rw [Place.select, ← selectIndex_toInt32 hlt]
    exact Place.child_of_judgeIndex hjudge
  · rintro _ ⟨⟩
    exact hlt

/-- What is left of the root of the schema. -/
theorem Located.topmost (h : Located env T root c p place) {r : Except Failure Bool}
    (hcall : outcome (callback env e) c = (r, c')) : c'.Topmost := by
  have htop := topmost_callback env e c h.schemaRoot
  rwa [hcall] at htop

/-- The place for the next element of an array. -/
theorem Located.element (hset : SetOnSchemas env T) {a : List (Json D)}
    (h : Located env T root c p place)
    (hnode : c.json.root.node p = some (.array a))
    (hsize : ∀ pl, place = some pl → pl.schema.tuple.isSome → a.length ≤ 2 ^ 31)
    {q : Path} {c₁ : Context D} (hobj : outcome (getObj env) c = (.ok (some q), c₁)) :
    ∃ child, Located env T root c₁ q child ∧ Slot c₁ q ∧ q = p ++ [.index a.length] := by
  obtain ⟨child, hverdict, hkept, hq, hopened⟩ :=
    (ends_getObj hset h.cursor hnode h.points).of_ok hobj (by simp) (by simp)
  cases hq
  obtain ⟨u, -, hpursue⟩ := bind_eq_passed.mp hverdict
  have htop := topmost_getObj env c h.schemaRoot
  rw [hobj] at htop
  exact ⟨child, h.opened hopened hkept htop hnode (by simp [Carries])
    (selected_of_index hsize hpursue), hopened.slot, rfl⟩

variable (hroot : ∀ first, root = some first → first.sels = []) (hset : SetOnSchemas env T)

include hroot

/-- The first event of a value. -/
theorem Located.enter (h : Located env T root c p place)
    (hnode : c.json.root.node p = some .undef) (hnext : Spot.enter p e = some spot')
    (hcall : outcome (callback env e) c = (.ok true, c')) : Stands env T root c' spot' := by
  have htop := h.topmost hcall
  have hslot : Slot c p := ⟨h.cursor, hnode⟩
  cases e with
  | null =>
      cases hnext
      obtain ⟨j, -, hkept, -, hdone⟩ :=
        (ends_parseNull hslot h.points).of_ok hcall (by simp) (by simp)
      exact h.leave hroot hdone hkept htop
  | boolean b =>
      cases hnext
      obtain ⟨j, -, hkept, -, hdone⟩ :=
        (ends_parseValue hslot h.points (.bool b)).of_ok hcall (by simp) (by simp)
      exact h.leave hroot hdone hkept htop
  | number lexeme =>
      cases hnext
      obtain ⟨j, -, hkept, -, hdone⟩ :=
        (ends_parseNumber hslot h.points lexeme).of_ok hcall (by simp) (by simp)
      exact h.leave hroot hdone hkept htop
  | string v =>
      cases hnext
      obtain ⟨j, -, hkept, -, hdone⟩ :=
        (ends_parseValue hslot h.points (.string v)).of_ok hcall (by simp) (by simp)
      exact h.leave hroot hdone hkept htop
  | startMap =>
      cases hnext
      obtain ⟨u, -, hkept, -, hinside⟩ :=
        (ends_parseStart hslot h.points (.object [])).of_ok hcall (by simp) (by simp)
      exact ⟨place, [], h.inside hinside hkept htop, hinside.node hnode⟩
  | startArray =>
      cases hnext
      obtain ⟨u, -, hkept, -, hinside⟩ :=
        (ends_parseStart hslot h.points (.array [])).of_ok hcall (by simp) (by simp)
      exact ⟨place, [], h.inside hinside hkept htop, hinside.node hnode, rfl,
        fun _ _ _ => Nat.zero_le _⟩
  | _ => cases hnext

include hset

/-- One event: a callback that returns 1 leaves the cursors at the next spot. -/
theorem Stands.next (h : Stands env T root c spot) (hnext : spot.next e = some spot')
    (hcall : outcome (callback env e) c = (.ok true, c')) : Stands env T root c' spot' := by
  cases spot with
  | value p =>
      obtain ⟨place, hlocated, hnode⟩ := h
      exact hlocated.enter hroot hnode hnext hcall
  | object p =>
      obtain ⟨place, o, hlocated, hnode⟩ := h
      have htop := hlocated.topmost hcall
      cases e with
      | mapKey k =>
          cases hnext
          obtain ⟨child, hverdict, hkept, -, hopened⟩ :=
            (ends_parseMapKey hset hlocated.cursor hnode hlocated.points k).of_ok hcall
              (by simp) (by simp)
          obtain ⟨ch, hpursue, hnew⟩ := bind_eq_passed.mp hverdict
          obtain rfl : ch = child := by
            split at hnew <;> cases hnew
            rfl
          exact ⟨ch, hlocated.opened hopened hkept htop hnode trivial
            (selected_of_pursue hpursue), hopened.slot.node⟩
      | endMap =>
          cases hnext
          obtain ⟨j, -, hkept, -, hdone⟩ :=
            (ends_parseEndMap hlocated.cursor hnode hlocated.points).of_ok hcall
              (by simp) (by simp)
          exact hlocated.leave hroot hdone hkept htop
      | _ => cases hnext
  | array p size =>
      obtain ⟨place, a, hlocated, hnode, rfl, hsize⟩ := h
      have htop := hlocated.topmost hcall
      by_cases he : e = .endArray
      · subst he
        cases hnext
        obtain ⟨j, -, hkept, -, hdone⟩ :=
          (ends_parseEndArray hset hlocated.cursor hnode hlocated.points).of_ok hcall
            (by simp) (by simp)
        exact hlocated.leave hroot hdone hkept htop
      · rw [Spot.next_array he] at hnext
        obtain ⟨f, hcallback, hnone⟩ := callback_of_enter env hnext
        rw [hcallback] at hcall
        obtain ⟨r, c₁, hobj, hrest⟩ := exists_of_bind hcall
        cases r with
        | none =>
            rw [hnone] at hrest
            cases hrest
        | some q =>
            obtain ⟨child, hlocated₁, hslot₁, rfl⟩ :=
              hlocated.element hset hnode hsize hobj
            have hcall₁ : outcome (callback env e) c₁ = (.ok true, c') := by
              rw [hcallback, outcome_bind_ok (hslot₁.getObj env)]
              exact hrest
            exact hlocated₁.enter hroot hslot₁.node hnext hcall₁
  | finished => cases hnext

/-- Some events. -/
theorem Stands.after {es : List Event} (h : Stands env T root c spot)
    (hafter : spot.after es = some spot') (hfeed : outcome (feed env es) c = (.ok (), c')) :
    Stands env T root c' spot' := by
  induction es generalizing c spot with
  | nil =>
      cases hafter
      cases hfeed
      exact h
  | cons e es ih =>
      rw [Spot.after_cons] at hafter
      obtain ⟨spot₁, hnext, hrest⟩ := Option.bind_eq_some_iff.mp hafter
      rw [feed] at hfeed
      obtain ⟨b, c₁, hcall, hfeed₁⟩ := exists_of_bind hfeed
      cases b with
      | false => cases hfeed₁
      | true => exact ih (h.next hroot hset hnext hcall) hrest hfeed₁

end Steps

end Json

end Gearbox
