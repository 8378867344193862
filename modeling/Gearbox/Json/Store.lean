import Gearbox.Json.Growth
import Gearbox.Refinement.Verdict

/-!
# The functions that change a schema

What the functions of `JsonSchema` that work on a tree compute, in terms of the schema
as it was parsed. Every one of them leaves a tree that `Extends` the tree it started
with, also when it throws.
-/

namespace Gearbox

namespace Json

open Refinement

variable {D : Type}

section Paths

theorem paths_cons (sel : Sel) (sels : List Sel) :
    paths (sel :: sels) = sel.path ++ paths sels := rfl

theorem paths_snoc (sels : List Sel) (sel : Sel) :
    paths (sels ++ [sel]) = paths sels ++ sel.path := by
  simp [paths]

theorem paths_ne_index (sels : List Sel) (i : ℕ) (q : Path) :
    paths sels ≠ .index i :: q := by
  cases sels with
  | nil => simp [paths]
  | cons sel sels => simp [paths_cons, Sel.path_eq]

theorem sel_of_append {sel sel' : Sel} {p p' : Path} (hp : ∀ i q, p ≠ .index i :: q)
    (hp' : ∀ i q, p' ≠ .index i :: q) (h : sel'.path ++ p' = sel.path ++ p) :
    sel' = sel ∧ p' = p := by
  cases sel <;> cases sel' <;> simp_all [Sel.path]
  exact hp _ _ h.symm

/-- A path of selections is read in one way only, up to an index at its end. -/
theorem paths_eq_append {sels sels' : List Sel} {q : Path}
    (hq : ∀ i q', q ≠ .index i :: q') (h : paths sels' = paths sels ++ q) :
    ∃ rest, sels' = sels ++ rest ∧ paths rest = q := by
  induction sels generalizing sels' with
  | nil => exact ⟨sels', rfl, by simpa [paths] using h⟩
  | cons sel sels ih =>
      have hindex : ∀ i q', paths sels ++ q ≠ .index i :: q' := by
        intro i q' heq
        cases sels with
        | nil => exact hq i q' (by simpa [paths] using heq)
        | cons sel' sels => simp [paths_cons, Sel.path_eq] at heq
      cases sels' with
      | nil => simp [Sel.path_eq, paths] at h
      | cons sel' sels' =>
          rw [paths_cons, paths_cons, List.append_assoc] at h
          obtain ⟨rfl, hrest⟩ := sel_of_append hindex (paths_ne_index sels') h
          obtain ⟨rest, rfl, hq'⟩ := ih hrest
          exact ⟨rest, rfl, hq'⟩

theorem paths_injective {sels sels' : List Sel} (h : paths sels' = paths sels) :
    sels' = sels := by
  obtain ⟨rest, hrest, hnil⟩ := paths_eq_append (q := []) (by simp) (by simpa using h)
  cases rest with
  | nil => simpa using hrest
  | cons sel rest => simp [paths_cons, Sel.path_eq] at hnil

theorem paths_ne_type (sels sels' : List Sel) : paths sels' ≠ paths sels ++ [.key "type"] := by
  intro h
  obtain ⟨rest, -, hrest⟩ := paths_eq_append (by simp) h
  cases rest with
  | nil => simp [paths] at hrest
  | cons sel rest => cases sel <;> simp [paths_cons, Sel.path] at hrest

end Paths

/-- The parent of the sub-schema is the schema that selects it. -/
def Linked (t : Tree D) (sels : List Sel) (sel : Sel) : Prop :=
  t.parent (paths (sels ++ [sel])) = some (paths sels)

/-- A tree of a schema went through changes that do not change what it means. -/
structure Extends (env : Env D) (t t' : Tree D) : Prop where
  grows : Grows env t.root t'.root
  linked : ∀ sels sel, Linked t sels sel → Linked t' sels sel

namespace Extends

variable {env : Env D} {t t' t'' : Tree D}

theorem refl (env : Env D) (t : Tree D) : Extends env t t :=
  ⟨Grows.refl env t.root, fun _ _ h => h⟩

theorem trans (h : Extends env t t') (h' : Extends env t' t'') : Extends env t t'' :=
  ⟨h.grows.trans h'.grows, fun sels sel hsel => h'.linked sels sel (h.linked sels sel hsel)⟩

/-- A sub-schema is linked to the schema that selects it. -/
theorem setParent (t : Tree D) (sels : List Sel) (sel : Sel) :
    Extends env t (t.setParent (paths (sels ++ [sel])) (some (paths sels))) where
  grows := Grows.refl env t.root
  linked := by
    intro sels' sel' h
    by_cases heq : paths (sels' ++ [sel']) = paths (sels ++ [sel])
    · have hsels := paths_injective heq
      obtain ⟨hsels', -⟩ := List.append_inj' hsels rfl
      subst hsels'
      simp [Linked, Tree.setParent, heq]
    · simpa [Linked, Tree.setParent, heq] using h

/-- A change of a sub-schema. -/
theorem modify {sels : List Sel} {c : Json D} {f : Json D → Json D}
    (hc : t.root.real sels = some c) (hf : Grows env c (f c)) :
    Extends env t (t.modify (paths sels) f) where
  grows := Grows.modify hc hf
  linked := fun _ _ h => h

end Extends

/-- A part of a program that starts later. -/
theorem meets_after {α β : Type} {env : Env D} {t t' : Tree D}
    {r : Except Failure α × Tree D} {o : Option β} {Q : α → β → Tree D → Prop}
    (h : Meets r o (Extends env t') Q) (ht : Extends env t t') :
    Meets r o (Extends env t) Q :=
  h.mono (fun _ => ht.trans) fun _ _ _ _ _ hq => hq

theorem ends_after {α β : Type} {env : Env D} {t t' : Tree D} {no gone : Except Failure α}
    {r : Except Failure α × Tree D} {v : Verdict β} {Q : α → β → Tree D → Prop}
    (h : Ends no gone r v (Extends env t') Q) (ht : Extends env t t') :
    Ends no gone r v (Extends env t) Q :=
  h.mono (fun _ => ht.trans) fun _ _ _ _ _ hq => hq

/-- The links of a schema that was just parsed. -/
theorem linked_fresh_items (s : Json D) (sels : List Sel) :
    Linked (Tree.fresh s) sels .items := by
  simp [Linked, Tree.fresh, Tree.container, paths_snoc, Sel.path]

theorem linked_fresh_additional (s : Json D) (sels : List Sel) :
    Linked (Tree.fresh s) sels .additional := by
  simp [Linked, Tree.fresh, Tree.container, paths_snoc, Sel.path]

/-- The sub-schema of the tree at `sels` is the sub-schema `s` of the schema `T` that was
parsed. -/
structure Holds (env : Env D) (T : Json D) (t : Tree D) (sels : List Sel) (s : Json D) :
    Prop where
  from_ : Extends env (Tree.fresh T) t
  sub : T.sub sels = some s
  present : (t.root.real sels).isSome

namespace Holds

variable {env : Env D} {T s : Json D} {t t' : Tree D} {sels : List Sel}

theorem mono (h : Holds env T t sels s) (ht : Extends env t t') :
    Holds env T t' sels s where
  from_ := h.from_.trans ht
  sub := h.sub
  present := ht.grows.present sels h.present

/-- The node of the tree and how it is related to the schema that was parsed. -/
theorem node (h : Holds env T t sels s) :
    ∃ s', t.root.real sels = some s' ∧ outcome (load (paths sels)) t = (.ok s', t) ∧
      Alike env s s' ∧ ∀ sel, Option.Rel (Alike env) (s.child sel) (s'.child sel) := by
  obtain ⟨s', hs'⟩ := Option.isSome_iff_exists.mp h.present
  have hload : outcome (load (paths sels)) t = (.ok s', t) := by
    simp [load, node_of_real hs']
  have hrel := h.from_.grows.sub sels
  have hsub : (Tree.fresh T).root.sub sels = some s := h.sub
  rw [hsub, sub_of_real hs'] at hrel
  have halike : Alike env s s' := by
    cases hrel with
    | some halike => exact halike
  refine ⟨s', hs', hload, halike, ?_⟩
  intro sel
  have hchild := h.from_.grows.sub (sels ++ [sel])
  rw [sub_append, sub_append, hsub, sub_of_real hs'] at hchild
  simpa [Json.sub] using hchild

end Holds

section Additional

variable (env : Env D)

/-- The schema with a schema for additional properties. -/
def withAny : Json D → Json D
  | .undef => .object [("additionalProperties", anySchema)]
  | .object o =>
    if (o.lookup "additionalProperties").isSome then
      .object (Assoc.modifyKey "additionalProperties" (fun _ => anySchema) o)
    else
      .object (Assoc.insertKey "additionalProperties" anySchema o)
  | j => j

/-- Additional properties are allowed, but the tree has no schema for them. -/
def Vivifies : Json D → Prop
  | .undef => True
  | .object o => o.lookup "additionalProperties" = none ∨
      o.lookup "additionalProperties" = some (.bool true)
  | _ => False

theorem member_withAny {s : Json D} (hs : Vivifies s) (k : String) :
    (withAny s).member k =
      if k = "additionalProperties" then some anySchema else s.member k := by
  cases s with
  | undef => simp [withAny, member, Assoc.lookup_cons_eq]
  | object o =>
      rcases hs with hs | hs
      · simp only [withAny, hs, Option.isSome_none, Bool.false_eq_true, if_false, member,
          Assoc.lookup_insertKey hs]
      · simp [withAny, hs, member, Assoc.lookup_modifyKey]
  | _ => exact hs.elim

theorem grows_withAny {s : Json D} (hs : Vivifies s) : Grows env s (withAny s) := by
  have hmember := member_withAny hs
  have htype : (withAny s).type = .object := type_of_member (by rw [hmember, if_pos rfl])
  have hother : ∀ k, k ≠ "additionalProperties" → (withAny s).member k = s.member k :=
    fun k hk => by rw [hmember, if_neg hk]
  have hfix : typeFixup env (withAny s) = typeFixup env s := by
    funext j
    simp only [typeFixup, hother "type" (by simp)]
  have hchild : ∀ sel, sel ≠ .additional → (withAny s).child sel = s.child sel := by
    intro sel hsel
    cases sel with
    | property k => simp [child, property, hother]
    | items => simp [child, hother]
    | item i => simp [child, tuple, hother]
    | additional => exact absurd rfl hsel
  have hadditional : (withAny s).child .additional = s.child .additional := by
    rw [child_additional htype, hmember, if_pos rfl]
    cases s with
    | undef => rfl
    | object o =>
        rcases hs with hs | hs
        · simp [child, hs, anySchema]
        · simp [child, hs, anySchema]
    | _ => exact hs.elim
  refine grows_of_children ?_ ?_ ?_
  · exact {
      count := by
        cases s with
        | undef => rfl
        | object o =>
            simp only [withAny]
            split
            · rfl
            · rfl
        | _ => rfl
      object := fun _ => htype
      keyword := fun k hk => (hother k (fun h => hk (by simp [h]))).symm
      default := by rw [hother "default" (by simp), hfix]
      properties := by simp only [properties, hother "properties" (by simp)]
      listed := by rw [hother "properties" (by simp)]
      items := by rw [hother "items" (by simp)] }
  · intro sel
    by_cases hsel : sel = .additional
    · rw [hsel, hadditional]
    · exact hchild sel hsel
  · intro sel c hc
    by_cases hsel : sel = .additional
    · subst hsel
      obtain ⟨hreal, hobject⟩ := Option.filter_eq_some_iff.mp hc
      cases s with
      | object o =>
          simp only [member] at hreal
          rcases hs with hs | hs
          · simp [hs] at hreal
          · rw [hs] at hreal
            cases hreal
            simp [type] at hobject
      | _ => simp [member] at hreal
    · rw [realChild_of_ne _ hsel] at hc ⊢
      rw [hchild sel hsel, hc]

theorem real_withAny {s : Json D} (hs : Vivifies s) :
    (withAny s).real [.additional] = some anySchema := by
  simp [real, realChild, member_withAny hs, Option.filter, anySchema, type]

variable {env} {t : Tree D} {sels : List Sel} {s : Json D}

theorem outcome_load {p : Path} (h : t.root.node p = some s) :
    outcome (load p) t = (.ok s, t) := by
  simp [load, h]

@[simp] theorem outcome_update (f : Tree D → Tree D) (t : Tree D) :
    outcome (update f) t = (.ok (), f t) := rfl

theorem outcome_index_present {p : Path} {k : String} {o : List (String × Json D)}
    (h : t.root.node p = some (.object o)) (hk : (o.lookup k).isSome) :
    outcome (index env p k) t = (.ok (p ++ [.key k]), t) := by
  rw [index, outcome_bind_ok (outcome_load h)]
  simp [hk]

theorem outcome_index_absent {p : Path} {k : String} {o : List (String × Json D)}
    (h : t.root.node p = some (.object o)) (hk : o.lookup k = none) :
    outcome (index env p k) t = (.ok (p ++ [.key k]), t.addKey p k) := by
  rw [index, outcome_bind_ok (outcome_load h)]
  simp only [hk, Option.isSome_none, Bool.false_eq_true, if_false]
  rw [outcome_bind_ok (outcome_update _ t)]
  rfl

theorem outcome_index_undef {p : Path} {k : String} (h : t.root.node p = some .undef) :
    outcome (index env p k) t =
      (.ok (p ++ [.key k]), (t.modify p fun _ => .object []).addKey p k) := by
  rw [index, outcome_bind_ok (outcome_load h)]
  rw [outcome_bind_ok (outcome_update _ t)]
  rfl

/-- The first access of `create` makes sure that the key is there. -/
theorem outcome_index_vivifies (env : Env D) {p : Path} (h : t.root.node p = some s)
    (hs : Vivifies s) :
    ∃ t' o, outcome (index env p "additionalProperties") t =
        (.ok (p ++ [.key "additionalProperties"]), t') ∧
      t'.root = t.root.modify p (fun _ => .object o) ∧
      withAny s = .object (Assoc.modifyKey "additionalProperties" (fun _ => anySchema) o) ∧
      (o.lookup "additionalProperties").isSome ∧
      ∀ q, t'.parent q = t.parent q ∨
        (q = p ++ [.key "additionalProperties"] ∧ t'.parent q = some p) := by
  cases s with
  | undef =>
      refine ⟨_, [("additionalProperties", .undef)], outcome_index_undef h, ?_, ?_, ?_, ?_⟩
      · simp only [Tree.addKey, Tree.modify, Tree.setParent, modify_modify]
        rfl
      · simp [withAny, Assoc.modifyKey]
      · simp
      · intro q
        by_cases hq : q = p ++ [.key "additionalProperties"]
        · simp [Tree.addKey, Tree.modify, Tree.setParent, hq]
        · simp [Tree.addKey, Tree.modify, Tree.setParent, hq]
  | object o =>
      rcases hs with hs | hs
      · refine ⟨_, Assoc.insertKey "additionalProperties" .undef o,
          outcome_index_absent h hs, ?_, ?_, ?_, ?_⟩
        · apply modify_congr
          intro c hc
          rw [h] at hc
          cases hc
          rfl
        · simp [withAny, hs, Assoc.modifyKey_insertKey hs]
        · simp [Assoc.lookup_insertKey hs]
        · intro q
          by_cases hq : q = p ++ [.key "additionalProperties"]
          · simp [Tree.addKey, Tree.modify, Tree.setParent, hq]
          · simp [Tree.addKey, Tree.modify, Tree.setParent, hq]
      · have hsome : (o.lookup "additionalProperties").isSome := by simp [hs]
        refine ⟨t, o, outcome_index_present h hsome, ?_, ?_, hsome, fun q => Or.inl rfl⟩
        · rw [modify_self h]
        · simp [withAny, hs]
  | _ => exact hs.elim

/-- The tree after `create` has the schema for additional properties. -/
theorem outcome_create (env : Env D) (h : t.root.real sels = some s) (hs : Vivifies s) :
    ∃ t', outcome (getAdditionalProperties.create env (paths sels)) t =
        (.ok (paths (sels ++ [.additional])), t') ∧ Extends env t t' ∧
      (t'.root.real (sels ++ [.additional])).isSome := by
  obtain ⟨t₁, o, hindex, hroot, hany, hsome, hparent⟩ :=
    outcome_index_vivifies env (node_of_real h) hs
  have hpath : paths (sels ++ [.additional]) =
      paths sels ++ [.key "additionalProperties"] := paths_snoc sels .additional
  have hroot' : t₁.root.modify (paths sels ++ [.key "additionalProperties"])
      (fun _ => anySchema) = t.root.modify (paths sels) fun _ => withAny s := by
    rw [hroot, modify_append, modify_modify, hany]
    rfl
  have hgrows : Grows env t.root (t.root.modify (paths sels) fun _ => withAny s) :=
    Grows.modify h (grows_withAny env hs)
  have hreal : (t.root.modify (paths sels) fun _ => withAny s).real sels =
      some (withAny s) := real_modify h (grows_withAny env hs)
  let t₂ := (t₁.modify (paths sels ++ [.key "additionalProperties"]) fun _ => anySchema).setParent
    (paths sels ++ [.key "additionalProperties"] ++ [.key "type"])
    (some (paths sels ++ [.key "additionalProperties"]))
  have hroot₂ : t₂.root = t.root.modify (paths sels) fun _ => withAny s := hroot'
  refine ⟨t₂, ?_, ?_, ?_⟩
  · have hnode : t₂.root.node (paths sels) = some (withAny s) := by
      rw [hroot₂, node_of_real hreal]
    rw [hany] at hnode
    have hparse : outcome (parseAny (paths sels ++ [.key "additionalProperties"])) t₁ =
        (.ok (), t₂) := rfl
    rw [getAdditionalProperties.create, outcome_bind_ok hindex, outcome_bind_ok hparse,
      hpath]
    apply outcome_index_present hnode
    simp [Assoc.lookup_modifyKey, hsome]
  · refine ⟨hroot₂ ▸ hgrows, ?_⟩
    intro sels' sel' hlinked
    have htype : paths (sels' ++ [sel']) ≠
        paths sels ++ [.key "additionalProperties"] ++ [.key "type"] := by
      rw [← hpath]
      exact paths_ne_type _ _
    have hparent₂ : t₂.parent (paths (sels' ++ [sel'])) =
        t₁.parent (paths (sels' ++ [sel'])) := by
      simp only [t₂, Tree.setParent, Tree.modify, if_neg htype]
    rw [Linked, hparent₂]
    rcases hparent (paths (sels' ++ [sel'])) with hsame | ⟨hq, hnew⟩
    · rw [hsame]
      exact hlinked
    · rw [← hpath] at hq
      obtain ⟨hsels, -⟩ := List.append_inj' (paths_injective hq) rfl
      rw [hnew, hsels]
  · rw [hroot₂, real_append, hreal]
    simp [real_withAny hs]

theorem lookup_of_not_vivifies {o : List (String × Json D)}
    (hs : ((Json.object o).child .additional).isSome) (hviv : ¬Vivifies (.object o)) :
    ∃ o', o.lookup "additionalProperties" = some (.object o') := by
  cases hk : o.lookup "additionalProperties" with
  | none => exact absurd (Or.inl hk) hviv
  | some j =>
      cases j with
      | object o' => exact ⟨o', rfl⟩
      | bool b =>
          cases b with
          | true => exact absurd (Or.inr hk) hviv
          | false => simp [child, hk] at hs
      | _ => simp [child, hk] at hs

theorem outcome_index_other {p : Path} (hthrows : ∀ m, ∃ e, env.errHandler p m = .error e)
    {k : String} (h : t.root.node p = some s) (hobject : s.type ≠ .object)
    (hundef : s.type ≠ .undef) : ∃ e, outcome (index env p k) t = (.error e, t) := by
  rw [index, outcome_bind_ok (outcome_load h)]
  obtain ⟨e, he⟩ := hthrows
    ("cannot access object key \"" ++ k ++ "\" on type " ++ s.type.typeToName)
  have hlift : outcome (liftM (env.errHandler p ("cannot access object key \"" ++ k
      ++ "\" on type " ++ s.type.typeToName)) : SchemaM D Bool) t = (.error e, t) := by
    rw [he]
    rfl
  cases s with
  | object o => exact absurd rfl hobject
  | undef => exact absurd rfl hundef
  | _ => exact ⟨e, outcome_bind_error hlift⟩

/-- `getAdditionalProperties` where additional properties are allowed. -/
theorem outcome_additional (env : Env D) (h : t.root.real sels = some s)
    (hs : (s.child .additional).isSome) :
    ∃ t', outcome (getAdditionalProperties env (paths sels)) t =
        (.ok (some (paths (sels ++ [.additional]))), t') ∧ Extends env t t' ∧
      (t'.root.real (sels ++ [.additional])).isSome := by
  have hload := outcome_load (node_of_real h)
  by_cases hviv : Vivifies s
  · obtain ⟨t', hcreate, hextends, hreal⟩ := outcome_create env h hviv
    refine ⟨t', ?_, hextends, hreal⟩
    rw [getAdditionalProperties, outcome_bind_ok hload]
    cases s with
    | undef =>
        simp only [member]
        rw [outcome_bind_ok hcreate, outcome_pure]
    | object o =>
        simp only [member]
        rcases hviv with hviv | hviv
        · rw [hviv]
          simp only
          rw [outcome_bind_ok hcreate, outcome_pure]
        · rw [hviv]
          simp only
          rw [outcome_bind_ok hcreate, outcome_pure]
    | _ => exact hviv.elim
  · refine ⟨t, ?_, Extends.refl env t, ?_⟩
    · rw [getAdditionalProperties, outcome_bind_ok hload]
      cases s with
      | object o =>
          obtain ⟨o', ho'⟩ := lookup_of_not_vivifies hs hviv
          simp only [member, ho']
          rw [outcome_pure, paths_snoc]
          rfl
      | undef => exact absurd trivial hviv
      | _ => simp [child] at hs
    · rw [real_append, h]
      cases s with
      | object o =>
          obtain ⟨o', ho'⟩ := lookup_of_not_vivifies hs hviv
          simp [real, realChild, member, ho', Option.filter, type]
      | undef => exact absurd trivial hviv
      | _ => simp [child] at hs

/-- `getAdditionalProperties` where they are not. -/
theorem outcome_additional_none
    (hthrows : s.type ≠ .object → ∀ m, ∃ e, env.errHandler (paths sels) m = .error e)
    (h : t.root.real sels = some s) (hs : s.child .additional = none) :
    (s.type = .object ∧
        outcome (getAdditionalProperties env (paths sels)) t = (.ok none, t)) ∨
      s.type ≠ .object ∧
        ∃ e, outcome (getAdditionalProperties env (paths sels)) t = (.error e, t) := by
  have hload := outcome_load (node_of_real h)
  rw [getAdditionalProperties, outcome_bind_ok hload]
  by_cases hobject : s.type = .object
  · refine Or.inl ⟨hobject, ?_⟩
    cases s with
    | object o =>
        simp only [member]
        cases hk : o.lookup "additionalProperties" with
        | none => simp [child, hk] at hs
        | some j =>
            cases j with
            | bool b =>
                cases b with
                | true => simp [child, hk] at hs
                | false => rfl
            | object o' => simp [child, hk] at hs
            | _ => rfl
    | _ => simp [type] at hobject
  · refine Or.inr ⟨hobject, ?_⟩
    have hundef : s.type ≠ .undef := by
      cases s with
      | undef => simp [child] at hs
      | _ => simp [type]
    obtain ⟨e, he⟩ : ∃ e, outcome (index env (paths sels) "additionalProperties") t =
        (.error e, t) := outcome_index_other (hthrows hobject) (node_of_real h) hobject hundef
    have hmember : s.member "additionalProperties" = none := by
      cases s with
      | object o => exact absurd rfl hobject
      | _ => rfl
    refine ⟨e, ?_⟩
    rw [hmember]
    exact outcome_bind_error (outcome_bind_error he)

end Additional

end Json

end Gearbox
