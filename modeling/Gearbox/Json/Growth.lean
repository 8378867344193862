import Gearbox.Json.Conform

/-!
# A schema in use

A check may add the schema for additional properties to a schema and convert a default,
and it makes a schema the parent of the sub-schema that it selects. `Grows` says that a
value went through such changes: every sub-schema that can be selected still can, with
the same keywords, up to the conversion of its default. `Extends` adds that a schema
which leads up to the schema that selected it still does.

A schema in use `Extends` the schema as it was parsed, so a sub-schema of the tree can
be replaced by the sub-schema of the text that is selected in the same way.
-/

namespace Gearbox

namespace Json

open Refinement

variable {D : Type}

/-- The number of elements of an array. -/
def count? : Json D → Option ℕ
  | .array a => some a.length
  | _ => none

theorem length_of_count? {j j' : Json D} (h : j.count? = j'.count?) :
    j.length = j'.length := by
  cases j <;> cases j' <;> simp_all [count?, length]

theorem count?_modifyStep (j : Json D) (s : Step) (f : Json D → Json D) :
    (modifyStep s f j).count? = j.count? := by
  cases j with
  | object o => cases s <;> rfl
  | array a => cases s <;> simp [modifyStep, count?]
  | _ => rfl

theorem member_modifyStep (j : Json D) (k k' : String) (f : Json D → Json D) :
    (modifyStep (.key k) f j).member k' =
      if k' = k then (j.member k).map f else j.member k' := by
  rw [← step_key, ← step_key, ← step_key, step_modifyStep]
  simp

/-- Two schemas with the same keywords. -/
structure Alike (env : Env D) (s s' : Json D) : Prop where
  count : s.count? = s'.count?
  object : s.type = .object → s'.type = .object
  keyword : ∀ k, k ∉ ["properties", "items", "additionalProperties", "default"] →
    s.member k = s'.member k
  default : (s.member "default").map (typeFixup env s) =
    (s'.member "default").map (typeFixup env s')
  properties : s.properties = s'.properties
  listed : (s.member "properties").isSome = (s'.member "properties").isSome
  items : (s.member "items").map count? = (s'.member "items").map count?

/-- What selects a schema among the others: whether it is an array, and an object. -/
structure Shaped (s s' : Json D) : Prop where
  count : s.count? = s'.count?
  object : s.type = .object → s'.type = .object

theorem Alike.shaped {env : Env D} {s s' : Json D} (h : Alike env s s') : Shaped s s' :=
  ⟨h.count, h.object⟩

theorem Alike.refl (env : Env D) (s : Json D) : Alike env s s :=
  ⟨rfl, id, fun _ _ => rfl, rfl, rfl, rfl, rfl⟩

theorem Alike.trans {env : Env D} {s s' s'' : Json D} (h : Alike env s s')
    (h' : Alike env s' s'') : Alike env s s'' where
  count := h.count.trans h'.count
  object := fun hs => h'.object (h.object hs)
  keyword := fun k hk => (h.keyword k hk).trans (h'.keyword k hk)
  default := h.default.trans h'.default
  properties := h.properties.trans h'.properties
  listed := h.listed.trans h'.listed
  items := h.items.trans h'.items

theorem rel_alike_refl (env : Env D) (o : Option (Json D)) :
    Option.Rel (Alike env) o o := by
  cases o with
  | none => exact .none
  | some s => exact .some (Alike.refl env s)

/-- A sub-schema that is in the tree. -/
def realChild (s : Json D) : Sel → Option (Json D)
  | .additional => (s.member "additionalProperties").filter fun j => j.type = .object
  | sel => s.child sel

def real (s : Json D) : List Sel → Option (Json D)
  | [] => some s
  | sel :: sels => (s.realChild sel).bind fun c => c.real sels

section Real

theorem realChild_of_ne (s : Json D) {sel : Sel} (h : sel ≠ .additional) :
    s.realChild sel = s.child sel := by
  cases sel with
  | additional => exact absurd rfl h
  | _ => rfl

theorem child_of_realChild {s c : Json D} {sel : Sel} (h : s.realChild sel = some c) :
    s.child sel = some c := by
  cases sel with
  | additional =>
      obtain ⟨hmember, htype⟩ := Option.filter_eq_some_iff.mp h
      cases s with
      | object o =>
          cases c with
          | object o' =>
              simp only [member] at hmember
              simp [child, hmember]
          | _ => simp [type] at htype
      | _ => simp [member] at hmember
  | _ => exact h

theorem node_of_realChild {s c : Json D} {sel : Sel} (h : s.realChild sel = some c) :
    s.node sel.path = some c := by
  cases sel with
  | property k =>
      obtain ⟨p, hp, hk⟩ := Option.bind_eq_some_iff.mp h
      simp [Sel.path, node, step_key, hp, hk]
  | items =>
      obtain ⟨hmember, -⟩ := Option.filter_eq_some_iff.mp h
      simp [Sel.path, node, step_key, hmember]
  | item i =>
      obtain ⟨p, hp, hi⟩ := Option.bind_eq_some_iff.mp h
      obtain ⟨hmember, -⟩ := Option.filter_eq_some_iff.mp hp
      simp [Sel.path, node, step_key, hmember, hi]
  | additional =>
      obtain ⟨hmember, -⟩ := Option.filter_eq_some_iff.mp h
      simp [Sel.path, node, step_key, hmember]

theorem sub_append (s : Json D) (sels sels' : List Sel) :
    s.sub (sels ++ sels') = (s.sub sels).bind fun c => c.sub sels' := by
  induction sels generalizing s with
  | nil => rfl
  | cons sel sels ih =>
      cases hc : s.child sel with
      | none => simp [sub, hc]
      | some c => simp [sub, hc, ih]

theorem real_append (s : Json D) (sels sels' : List Sel) :
    s.real (sels ++ sels') = (s.real sels).bind fun c => c.real sels' := by
  induction sels generalizing s with
  | nil => rfl
  | cons sel sels ih =>
      cases hc : s.realChild sel with
      | none => simp [real, hc]
      | some c => simp [real, hc, ih]

theorem sub_of_real {s c : Json D} {sels : List Sel} (h : s.real sels = some c) :
    s.sub sels = some c := by
  induction sels generalizing s with
  | nil => exact h
  | cons sel sels ih =>
      obtain ⟨c', hc', hc⟩ := Option.bind_eq_some_iff.mp h
      simp [sub, child_of_realChild hc', ih hc]

theorem node_of_real {s c : Json D} {sels : List Sel} (h : s.real sels = some c) :
    s.node (paths sels) = some c := by
  induction sels generalizing s with
  | nil => exact h
  | cons sel sels ih =>
      obtain ⟨c', hc', hc⟩ := Option.bind_eq_some_iff.mp h
      have hpaths : paths (sel :: sels) = sel.path ++ paths sels := rfl
      rw [hpaths, node_append, node_of_realChild hc', Option.bind_some, ih hc]

end Real

/-- A schema went through changes that do not change what it means. -/
structure Grows (env : Env D) (s s' : Json D) : Prop where
  sub : ∀ sels, Option.Rel (Alike env) (s.sub sels) (s'.sub sels)
  present : ∀ sels, (s.real sels).isSome → (s'.real sels).isSome

theorem Grows.refl (env : Env D) (s : Json D) : Grows env s s where
  sub := fun _ => rel_alike_refl env _
  present := fun _ h => h

theorem Grows.alike {env : Env D} {s s' : Json D} (h : Grows env s s') :
    Alike env s s' := by
  have hs := h.sub []
  cases hs with
  | some hss => exact hss

theorem rel_alike_trans {env : Env D} {o o' o'' : Option (Json D)}
    (h : Option.Rel (Alike env) o o') (h' : Option.Rel (Alike env) o' o'') :
    Option.Rel (Alike env) o o'' := by
  cases h with
  | none =>
      cases h'
      exact .none
  | some hs =>
      cases h' with
      | some hs' => exact .some (hs.trans hs')

theorem Grows.trans {env : Env D} {s s' s'' : Json D} (h : Grows env s s')
    (h' : Grows env s' s'') : Grows env s s'' where
  sub := fun sels => rel_alike_trans (h.sub sels) (h'.sub sels)
  present := fun sels hsels => h'.present sels (h.present sels hsels)

/-- A change of the schema itself. -/
theorem grows_of_children {env : Env D} {s s' : Json D} (halike : Alike env s s')
    (hchild : ∀ sel, s'.child sel = s.child sel)
    (hreal : ∀ sel c, s.realChild sel = some c → s'.realChild sel = some c) :
    Grows env s s' where
  sub := by
    intro sels
    cases sels with
    | nil => exact .some halike
    | cons sel sels =>
        simp only [Json.sub, hchild sel]
        exact rel_alike_refl env _
  present := by
    intro sels h
    cases sels with
    | nil => rfl
    | cons sel sels =>
        cases hc : s.realChild sel with
        | none => simp [real, hc] at h
        | some c => simpa [real, hc, hreal sel c hc] using h

section Modify

/-- The keyword that holds the sub-schemas of a selection. -/
def Sel.keyword : Sel → String
  | .property _ => "properties"
  | .items => "items"
  | .item _ => "items"
  | .additional => "additionalProperties"

/-- The path of a selection below its keyword. -/
def Sel.below : Sel → Path
  | .property k => [.key k]
  | .items => []
  | .item i => [.index i]
  | .additional => []

theorem Sel.path_eq (sel : Sel) : sel.path = .key sel.keyword :: sel.below := by
  cases sel <;> rfl

theorem type_of_member {s c : Json D} {k : String} (h : s.member k = some c) :
    s.type = .object := by
  cases s with
  | object o => rfl
  | _ => simp [member] at h

theorem child_additional {s : Json D} (hs : s.type = .object) :
    s.child .additional =
      match s.member "additionalProperties" with
      | none => some anySchema
      | some (.bool true) => some anySchema
      | some (.object o) => some (.object o)
      | some _ => none := by
  cases s with
  | object o => rfl
  | _ => simp [type] at hs

theorem child_items {s p : Json D} (h : s.member "items" = some p) :
    s.child .items = if p.length < 0 then some p else none := by
  simp [child, h, Option.filter]

theorem child_item {s p : Json D} (h : s.member "items" = some p) (i : ℕ) :
    s.child (.item i) = if 0 ≤ p.length then p.step (.index i) else none := by
  by_cases hp : 0 ≤ p.length
  · simp [child, tuple, h, Option.filter, hp]
  · simp [child, tuple, h, Option.filter, hp]

/-- A sub-schema depends on its keyword only. -/
theorem child_congr {s s' : Json D} (hs : s.type = .object) (hs' : s'.type = .object)
    {sel : Sel} (h : s'.member sel.keyword = s.member sel.keyword) :
    s'.child sel = s.child sel := by
  cases sel with
  | property k =>
      simp only [Sel.keyword] at h
      simp [child, property, h]
  | items =>
      simp only [Sel.keyword] at h
      simp [child, h]
  | item i =>
      simp only [Sel.keyword] at h
      simp [child, tuple, h]
  | additional =>
      simp only [Sel.keyword] at h
      rw [child_additional hs, child_additional hs', h]

theorem realChild_congr {s s' : Json D} (hs : s.type = .object) (hs' : s'.type = .object)
    {sel : Sel} (h : s'.member sel.keyword = s.member sel.keyword) :
    s'.realChild sel = s.realChild sel := by
  cases sel with
  | additional =>
      simp only [Sel.keyword] at h
      simp [realChild, h]
  | _ => exact child_congr hs hs' h

variable {env : Env D} {s c : Json D} {sel : Sel} {f : Json D → Json D}

theorem member_of_realChild (hc : s.realChild sel = some c) :
    ∃ j, s.member sel.keyword = some j ∧ j.node sel.below = some c := by
  have hnode := node_of_realChild hc
  rw [Sel.path_eq] at hnode
  obtain ⟨j, hj, hnode⟩ := Option.bind_eq_some_iff.mp hnode
  rw [step_key] at hj
  exact ⟨j, hj, hnode⟩

theorem member_modify (k : String) :
    (s.modify sel.path f).member k =
      if k = sel.keyword then (s.member sel.keyword).map (modify sel.below f)
      else s.member k := by
  rw [Sel.path_eq]
  exact member_modifyStep s sel.keyword k (modify sel.below f)

theorem type_modify : (s.modify sel.path f).type = s.type := by
  rw [Sel.path_eq]
  exact type_modifyStep s (.key sel.keyword) (modify sel.below f)

theorem count?_below (hf : Shaped c (f c)) {j : Json D}
    (hj : j.node sel.below = some c) : (modify sel.below f j).count? = j.count? := by
  cases sel with
  | property k => exact count?_modifyStep j (.key k) f
  | item i => exact count?_modifyStep j (.index i) f
  | items =>
      cases hj
      exact hf.count.symm
  | additional =>
      cases hj
      exact hf.count.symm

theorem alike_modify (hc : s.realChild sel = some c) (hf : Shaped c (f c)) :
    Alike env s (s.modify sel.path f) := by
  obtain ⟨j, hj, hnode⟩ := member_of_realChild hc
  have hother : ∀ k, k ∉ ["properties", "items", "additionalProperties"] →
      (s.modify sel.path f).member k = s.member k := by
    intro k hk
    have hne : k ≠ sel.keyword := by
      rintro rfl
      cases sel <;> simp [Sel.keyword] at hk
    rw [member_modify, if_neg hne]
  have htype : (s.modify sel.path f).member "type" = s.member "type" :=
    hother "type" (by simp)
  have hfix : typeFixup env (s.modify sel.path f) = typeFixup env s := by
    funext i
    simp only [typeFixup, htype]
  exact {
    count := by
      rw [Sel.path_eq]
      exact (count?_modifyStep s (.key sel.keyword) (modify sel.below f)).symm
    object := fun hs => type_modify.trans hs
    keyword := fun k hk => (hother k (fun h => hk (by simp at h ⊢; tauto))).symm
    default := by rw [hother "default" (by simp), hfix]
    properties := by
      cases sel with
      | property k =>
          cases j with
          | object o =>
              simp only [Sel.keyword] at hj
              simp [properties, member_modify, Sel.keyword, Sel.below, modify, hj, modifyStep,
                asObject]
          | _ => simp [Sel.below, node, step] at hnode
      | _ => simp [properties, member_modify, Sel.keyword]
    listed := by
      rw [member_modify]
      split
      · simp_all
      · rfl
    items := by
      by_cases hk : "items" = sel.keyword
      · rw [member_modify, if_pos hk, hk, hj]
        simp [count?_below hf hnode]
      · rw [member_modify, if_neg hk] }

/-- The changed sub-schema is selected in the same way. -/
theorem realChild_modify_self (hc : s.realChild sel = some c) (hf : Shaped c (f c)) :
    (s.modify sel.path f).realChild sel = some (f c) := by
  have hlength := length_of_count? hf.count
  cases sel with
  | property k =>
      obtain ⟨p, hp, hk⟩ := Option.bind_eq_some_iff.mp hc
      have hmember := member_modifyStep p k k f
      simp only [if_true] at hmember
      simp [realChild, child, property, member_modify, Sel.keyword, Sel.below, modify, hp,
        hmember, hk]
  | items =>
      obtain ⟨hmember, hneg⟩ := Option.filter_eq_some_iff.mp hc
      have hneg' : (f c).length < 0 := by
        rw [← hlength]
        simpa using hneg
      simp [realChild, child, member_modify, Sel.keyword, Sel.below, modify, hmember, hneg']
  | item i =>
      obtain ⟨p, hp, hi⟩ := Option.bind_eq_some_iff.mp hc
      obtain ⟨hmember, hpos⟩ := Option.filter_eq_some_iff.mp hp
      have hpos' : 0 ≤ p.length := by simpa using hpos
      have hmember' : (s.modify (Sel.item i).path f).member "items" =
          some (modifyStep (.index i) f p) := by
        simp [member_modify, Sel.keyword, Sel.below, modify, hmember]
      have hchild := child_item hmember' i
      rw [length_modifyStep, if_pos hpos', step_modifyStep, if_pos rfl, hi] at hchild
      exact hchild
  | additional =>
      obtain ⟨hmember, htype⟩ := Option.filter_eq_some_iff.mp hc
      have htype' : (f c).type = .object := hf.object (by simpa using htype)
      simp [realChild, member_modify, Sel.keyword, Sel.below, modify, hmember, htype']

/-- The other sub-schemas stay. -/
theorem child_modify_of_ne (hc : s.realChild sel = some c) (hf : Shaped c (f c))
    {sel' : Sel} (hne : sel' ≠ sel) :
    (s.modify sel.path f).child sel' = s.child sel' := by
  obtain ⟨j, hj, hnode⟩ := member_of_realChild hc
  have hs : s.type = .object := type_of_member hj
  have hs' : (s.modify sel.path f).type = .object := type_modify.trans hs
  by_cases hk : sel'.keyword = sel.keyword
  · have hlength := length_of_count? (count?_below hf hnode)
    have hmember : (s.modify sel.path f).member sel.keyword =
        some (modify sel.below f j) := by
      rw [member_modify, if_pos rfl, hj, Option.map_some]
    cases sel with
    | property k =>
        cases sel' with
        | property k' =>
            have hkey : k' ≠ k := fun h => hne (h ▸ rfl)
            simp only [Sel.keyword] at hj
            simp [child, property, member_modify, Sel.keyword, Sel.below, modify, hj,
              member_modifyStep, hkey]
        | _ => simp [Sel.keyword] at hk
    | items =>
        cases sel' with
        | items => exact absurd rfl hne
        | item i =>
            rw [child_item hj, child_item hmember, hlength]
            have hneg : ¬0 ≤ j.length := by
              have hchild := child_of_realChild hc
              rw [child_items hj] at hchild
              split at hchild
              · omega
              · cases hchild
            rw [if_neg hneg, if_neg hneg]
        | _ => simp [Sel.keyword] at hk
    | item i =>
        have hpos : 0 ≤ j.length := by
          have hchild := child_of_realChild hc
          rw [child_item hj] at hchild
          split at hchild
          · assumption
          · cases hchild
        cases sel' with
        | items =>
            rw [child_items hj, child_items hmember, hlength]
            have hneg : ¬j.length < 0 := by omega
            rw [if_neg hneg, if_neg hneg]
        | item i' =>
            have hi : i' ≠ i := fun h => hne (h ▸ rfl)
            rw [child_item hj, child_item hmember, hlength, if_pos hpos, if_pos hpos]
            simp [Sel.below, modify, step_modifyStep, hi]
        | _ => simp [Sel.keyword] at hk
    | additional =>
        cases sel' with
        | additional => exact absurd rfl hne
        | _ => simp [Sel.keyword] at hk
  · exact child_congr hs hs' (by rw [member_modify, if_neg hk])

theorem child_modify (hc : s.realChild sel = some c) (hf : Shaped c (f c))
    (sel' : Sel) :
    (s.modify sel.path f).child sel' = if sel' = sel then some (f c) else s.child sel' := by
  by_cases hsel : sel' = sel
  · subst hsel
    rw [if_pos rfl, child_of_realChild (realChild_modify_self hc hf)]
  · rw [if_neg hsel, child_modify_of_ne hc hf hsel]

theorem realChild_modify (hc : s.realChild sel = some c) (hf : Shaped c (f c))
    (sel' : Sel) :
    (s.modify sel.path f).realChild sel' =
      if sel' = sel then some (f c) else s.realChild sel' := by
  by_cases hsel : sel' = sel
  · subst hsel
    rw [if_pos rfl, realChild_modify_self hc hf]
  · rw [if_neg hsel]
    cases sel' with
    | additional =>
        have hk : "additionalProperties" ≠ sel.keyword := by
          cases sel <;> simp_all [Sel.keyword]
        simp [realChild, member_modify, hk]
    | _ => exact child_modify_of_ne hc hf hsel

end Modify

/-- A change of a sub-schema. -/
theorem Grows.modify {env : Env D} {s c : Json D} {sels : List Sel}
    {f : Json D → Json D} (hc : s.real sels = some c) (hf : Grows env c (f c)) :
    Grows env s (s.modify (paths sels) f) := by
  induction sels generalizing s with
  | nil =>
      cases hc
      exact hf
  | cons sel sels ih =>
      obtain ⟨c', hc', hc⟩ := Option.bind_eq_some_iff.mp hc
      have hpaths : paths (sel :: sels) = sel.path ++ paths sels := rfl
      rw [hpaths, modify_append]
      have hgrows := ih hc
      exact {
        sub := by
          intro sels'
          cases sels' with
          | nil => exact .some (alike_modify hc' hgrows.alike.shaped)
          | cons sel' sels' =>
              simp only [Json.sub, child_modify hc' hgrows.alike.shaped]
              by_cases hsel : sel' = sel
              · subst hsel
                simp only [if_true, Option.bind_some, child_of_realChild hc']
                exact hgrows.sub sels'
              · simp only [if_neg hsel]
                exact rel_alike_refl env _
        present := by
          intro sels' h
          cases sels' with
          | nil => rfl
          | cons sel' sels' =>
              simp only [real, realChild_modify hc' hgrows.alike.shaped]
              by_cases hsel : sel' = sel
              · subst hsel
                simp only [if_true, Option.bind_some]
                exact hgrows.present sels' (by simpa [real, hc'] using h)
              · simpa [real, if_neg hsel] using h }

theorem real_modify {env : Env D} {s c : Json D} {sels : List Sel} {f : Json D → Json D}
    (hc : s.real sels = some c) (hf : Grows env c (f c)) :
    (s.modify (paths sels) f).real sels = some (f c) := by
  have hpresent := (Grows.modify hc hf).present sels (by simp [hc])
  obtain ⟨c', hc'⟩ := Option.isSome_iff_exists.mp hpresent
  have hnode := node_of_real hc'
  rw [node_modify, node_of_real hc, Option.map_some] at hnode
  rw [hc', hnode]

end Json

end Gearbox
