import Gearbox.Json.Answers

/-!
# The selections of a schema in use

`getChildSchema` on a schema in use selects the sub-schema that the schema as it was
parsed selects, and links it to the schema. `validMinSize` and `setDefaults` on a schema
in use have the results of the schema as it was parsed.
-/

namespace Gearbox

namespace Json

open Refinement Refinement.Verdict

variable {D : Type} {env : Env D} {T s : Json D} {t t' : Tree D} {sels : List Sel}

theorem rel_isSome {o o' : Option (Json D)} (h : Option.Rel (Alike env) o o') :
    o.isSome = o'.isSome := by
  cases h <;> rfl

namespace Holds

/-- A sub-schema that is in the tree. -/
theorem child (h : Holds env T t sels s) {sel : Sel}
    (hsel : (t.root.real (sels ++ [sel])).isSome) :
    ∃ c, s.child sel = some c ∧ Holds env T t (sels ++ [sel]) c := by
  obtain ⟨c', hc'⟩ := Option.isSome_iff_exists.mp hsel
  have hrel := h.from_.grows.sub (sels ++ [sel])
  have hsub : (Tree.fresh T).root.sub (sels ++ [sel]) = s.child sel := by
    have hs : (Tree.fresh T).root.sub sels = some s := h.sub
    rw [sub_append, hs]
    simp [Json.sub]
  rw [hsub, sub_of_real hc'] at hrel
  cases hc : s.child sel with
  | none =>
      rw [hc] at hrel
      cases hrel
  | some c =>
      have hT : T.sub (sels ++ [sel]) = some c := hsub.trans hc
      exact ⟨c, rfl, h.from_, hT, hsel⟩

theorem linked_items (h : Holds env T t sels s) : Linked t sels .items :=
  h.from_.linked sels .items (linked_fresh_items T sels)

theorem linked_additional (h : Holds env T t sels s) : Linked t sels .additional :=
  h.from_.linked sels .additional (linked_fresh_additional T sels)

/-- `getAdditionalProperties` returns, or the schema is not an object and its handler
throws. -/
theorem additional (hset : SetOnSchemas env T) (h : Holds env T t sels s) :
    (∃ t', outcome (getAdditionalProperties env (paths sels)) t =
          (.ok (s.selectAdditional.map fun sel => paths (sels ++ [sel])), t') ∧
        Extends env t t' ∧
        ((s.child .additional).isSome →
          (t'.root.real (sels ++ [.additional])).isSome)) ∨
      (∀ k, s.member k = none) ∧ s.child .additional = none ∧
        (∀ m, ∃ e, env.errHandler (paths sels) m = .error e) ∧
        ∃ e, outcome (getAdditionalProperties env (paths sels)) t = (.error e, t) := by
  obtain ⟨s', hreal, -, halike, hchild⟩ := h.node
  have hsome := rel_isSome (hchild .additional)
  cases hs : s.child .additional with
  | some c =>
      rw [hs, Option.isSome_some] at hsome
      obtain ⟨t', hout, hextends, hpresent⟩ := outcome_additional env hreal hsome.symm
      refine Or.inl ⟨t', ?_, hextends, fun _ => hpresent⟩
      simpa [selectAdditional, hs] using hout
  | none =>
      rw [hs, Option.isSome_none] at hsome
      have hs' : s'.child .additional = none := by
        simpa using hsome.symm
      have hundef : s.type ≠ .undef := by
        cases s with
        | undef => simp [Json.child] at hs
        | _ => simp [type]
      have hthrows : s.type ≠ .object → ∀ m, ∃ e, env.errHandler (paths sels) m = .error e :=
        fun hobject => hset sels s h.sub hobject hundef
      rcases outcome_additional_none (fun hobject => hthrows fun hs => hobject (halike.object hs))
        hreal hs' with ⟨-, hout⟩ | ⟨hobject, e, hout⟩
      · refine Or.inl ⟨t, ?_, Extends.refl env t, by simp⟩
        simpa [selectAdditional, hs] using hout
      · have hobject' : s.type ≠ .object := fun hs => hobject (halike.object hs)
        refine Or.inr ⟨?_, rfl, hthrows hobject', e, hout⟩
        intro k
        cases s with
        | object o => exact absurd rfl hobject'
        | _ => rfl

end Holds

/-- The pointer leads to the sub-schema, which is linked to the schema at `sels`. -/
def Selects (env : Env D) (T : Json D) (sels : List Sel) (r : Option Path)
    (place : Place D) (t : Tree D) : Prop :=
  r = some (paths place.sels) ∧ Holds env T t place.sels place.schema ∧
    ∃ sel, place.sels = sels ++ [sel] ∧ Linked t sels sel

section Select

variable {t₁ : Tree D}

theorem ends_enter {m : SchemaM D (Option Path)} {sel : Sel} (h : Holds env T t sels s)
    (hm : outcome m t₁ = (.ok (some (paths (sels ++ [sel]))), t'))
    (hextends : Extends env t t') (hreal : (t'.root.real (sels ++ [sel])).isSome)
    (hlinked : Linked t' sels sel) :
    Ends (.ok none) (.ok none) (outcome m t₁) (Place.enter ⟨sels, s⟩ sel) (Extends env t)
      (Selects env T sels) := by
  obtain ⟨c, hc, hholds⟩ := (h.mono hextends).child hreal
  rw [Place.enter, hc]
  exact ends_ok hm hextends ⟨rfl, hholds, sel, rfl, hlinked⟩

/-- The handler of a schema that has no schema for a child. -/
theorem ends_absent (hextends : Extends env t t₁) (message : String) :
    Ends (.ok none) (.ok none) (outcome (do
        let _ ← env.errHandler (paths sels) message
        return none : SchemaM D (Option Path)) t₁)
      (absent env ⟨sels, s⟩ message) (Extends env t) (Selects env T sels) := by
  rw [absent, Place.handler]
  cases env.errHandler (paths sels) message with
  | error e => exact Ends.fail (outcome_lift _ t₁) hextends
  | ok b => exact ends_missing (outcome_bind_ok (outcome_lift _ t₁)) hextends

/-- The end of `getChildSchema` where only additional properties are left. -/
theorem ends_judgeAdditional (h : Holds env T t sels s) (hextends : Extends env t t₁)
    (hpresent : (s.child .additional).isSome →
      (t₁.root.real (sels ++ [.additional])).isSome) (message : String) :
    Ends (.ok none) (.ok none) (outcome
        (match s.selectAdditional.map fun sel => paths (sels ++ [sel]) with
        | some p => return some p
        | none => do
          let _ ← env.errHandler (paths sels) message
          return none : SchemaM D (Option Path)) t₁)
      (judgeAdditional env ⟨sels, s⟩ message) (Extends env t) (Selects env T sels) := by
  cases hs : s.child .additional with
  | none =>
      simp only [judgeAdditional, selectAdditional, hs, Option.map_none, Option.isSome_none,
        Bool.false_eq_true, if_false]
      exact ends_absent hextends message
  | some c =>
      simp only [judgeAdditional, selectAdditional, hs, Option.map_some, Option.isSome_some,
        if_true]
      exact ends_enter h (outcome_pure _ t₁) hextends (hpresent (by simp [hs]))
        (h.mono hextends).linked_additional

/-- A schema that is not an object has no schema for a child, and its handler throws. -/
theorem judgeAdditional_of_throws (hadd : s.child .additional = none)
    (hthrows : ∀ m, ∃ e, env.errHandler (paths sels) m = .error e) (message : String) :
    judgeAdditional env ⟨sels, s⟩ message = raised := by
  obtain ⟨e, he⟩ := hthrows message
  simp [judgeAdditional, absent, Place.handler, hadd, he]

theorem ends_getChildSchema (hset : SetOnSchemas env T) (h : Holds env T t sels s)
    (k : String) :
    Ends (.ok none) (.ok none) (outcome (getChildSchema env (paths sels) k) t)
      (judgeKey env ⟨sels, s⟩ k) (Extends env t) (Selects env T sels) := by
  rw [getChildSchema]
  rcases h.additional hset with ⟨t₁, hout, hextends, hpresent⟩ | ⟨hmember, hadd, hthrows, e, hout⟩
  · obtain ⟨s₁, hreal₁, hload₁, halike₁, hchild₁⟩ := (h.mono hextends).node
    have hsome : (s.property k).isSome = (s₁.property k).isSome :=
      rel_isSome (hchild₁ (.property k))
    apply Ends.step hout
    apply Ends.step hload₁
    simp only [judgeKey]
    rw [hsome, halike₁.listed, property]
    cases hp : s₁.member "properties" with
    | none =>
        simp only [Option.bind_none, Option.isSome_none, Bool.false_eq_true, if_false]
        exact ends_judgeAdditional h hextends hpresent _
    | some p =>
        simp only [Option.bind_some, Option.isSome_some, if_true]
        by_cases hk : p.hasKey k
        · have hk' : (p.member k).isSome := hk
          simp only [hk, hk', if_true]
          have hpath : paths sels ++ [.key "properties", .key k] =
              paths (sels ++ [.property k]) := (paths_snoc sels (.property k)).symm
          rw [hpath]
          have hreal : (t₁.root.real (sels ++ [.property k])).isSome := by
            rw [real_append, hreal₁]
            simp [real, realChild, child, property, hp, hk']
          apply Ends.step (outcome_update _ t₁)
          exact ends_enter h (outcome_pure _ _)
            (hextends.trans (Extends.setParent t₁ sels (.property k))) hreal
            (by simp [Linked, Tree.setParent])
        · have hk' : ¬(p.member k).isSome := hk
          simp only [hk, hk']
          exact ends_judgeAdditional h hextends hpresent _
  · have hraised : judgeKey env ⟨sels, s⟩ k = raised := by
      simp [judgeKey, property, hmember, judgeAdditional_of_throws hadd hthrows]
    rw [hraised]
    exact Ends.fail hout (Extends.refl env t)

theorem toInt32_le {n : ℤ} (h : 0 ≤ n) : toInt32 n ≤ n := by
  simp only [toInt32, Int.bmod]
  split <;> omega

/-- An element of a list of schemas. -/
theorem isSome_step {j : Json D} {idx : ℤ} (h0 : 0 ≤ idx) (hlt : idx < j.length) :
    (j.step (.index idx.toNat)).isSome := by
  cases j with
  | array a =>
      have hle : toInt32 a.length ≤ a.length := toInt32_le (Int.natCast_nonneg _)
      simp only [length] at hlt
      have hidx : idx.toNat < a.length := by omega
      simp [step, hidx]
  | _ =>
      simp only [length] at hlt
      omega

theorem ends_getChildSchemaAt (hset : SetOnSchemas env T) (h : Holds env T t sels s)
    (idx : ℤ) :
    Ends (.ok none) (.ok none) (outcome (getChildSchemaAt env (paths sels) idx) t)
      (judgeIndex env ⟨sels, s⟩ idx) (Extends env t) (Selects env T sels) := by
  rw [getChildSchemaAt]
  rcases h.additional hset with ⟨t₁, hout, hextends, hpresent⟩ | ⟨hmember, hadd, hthrows, e, hout⟩
  · obtain ⟨s₁, hreal₁, hload₁, halike₁, -⟩ := (h.mono hextends).node
    have hitems := halike₁.items
    apply Ends.step hout
    apply Ends.step hload₁
    cases hj : s.member "items" with
    | none =>
        rw [hj, Option.map_none] at hitems
        have hj₁ : s₁.member "items" = none := by simpa using hitems.symm
        simp only [judgeIndex, hj, hj₁]
        exact ends_judgeAdditional h hextends hpresent _
    | some j =>
        rw [hj, Option.map_some] at hitems
        obtain ⟨j₁, hj₁, hcount⟩ := Option.map_eq_some_iff.mp hitems.symm
        have hlength : j₁.length = j.length := length_of_count? hcount
        simp only [judgeIndex, hj, hj₁, hlength]
        by_cases h0 : 0 ≤ j.length
        · simp only [h0, if_true]
          by_cases hle : j.length ≤ idx
          · simp only [hle, if_true]
            exact ends_judgeAdditional h hextends hpresent _
          · simp only [hle, if_false]
            by_cases hneg : idx < 0
            · simp only [hneg, if_true]
              exact ends_error (outcome_throw _ t₁) hextends
            · simp only [hneg, if_false]
              have hpath : paths sels ++ [.key "items", .index idx.toNat] =
                  paths (sels ++ [.item idx.toNat]) :=
                (paths_snoc sels (.item idx.toNat)).symm
              rw [hpath]
              have hreal : (t₁.root.real (sels ++ [.item idx.toNat])).isSome := by
                have hstep : (j₁.step (.index idx.toNat)).isSome :=
                  isSome_step (by omega) (by omega)
                rw [real_append, hreal₁]
                simp [real, realChild, child_item hj₁, hlength, h0, hstep]
              apply Ends.step (outcome_update _ t₁)
              exact ends_enter h (outcome_pure _ _)
                (hextends.trans (Extends.setParent t₁ sels (.item idx.toNat))) hreal
                (by simp [Linked, Tree.setParent])
        · simp only [h0, if_false]
          have hpath : paths sels ++ [.key "items"] = paths (sels ++ [.items]) :=
            (paths_snoc sels .items).symm
          rw [hpath]
          have hreal : (t₁.root.real (sels ++ [.items])).isSome := by
            have hneg : j.length < 0 := by omega
            rw [real_append, hreal₁]
            simp [real, realChild, child_items hj₁, hlength, hneg]
          exact ends_enter h (outcome_pure _ t₁) hextends hreal
            (h.mono hextends).linked_items
  · have hraised : judgeIndex env ⟨sels, s⟩ idx = raised := by
      simp [judgeIndex, hmember, judgeAdditional_of_throws hadd hthrows]
    rw [hraised]
    exact Ends.fail hout (Extends.refl env t)

theorem ends_validMinSize (hset : SetOnSchemas env T) (h : Holds env T t sels s)
    (size : ℕ) (gone : Except Failure Bool) :
    Ends (.ok false) gone (outcome (validMinSize env (paths sels) size) t)
      (judgeMinSize env ⟨sels, s⟩ size) (Extends env t) (fun r _ _ => r = true) := by
  obtain ⟨s', hreal, hload, halike, -⟩ := h.node
  rw [validMinSize]
  apply Ends.step hload
  rw [← halike.validMinItems_eq]
  apply Ends.bind_check (Extends.refl env t) rfl
  intro _
  simp only [if_true]
  have hitems := halike.items
  cases hj : s.member "items" with
  | none =>
      rw [hj, Option.map_none] at hitems
      have hj' : s'.member "items" = none := by simpa using hitems.symm
      simp only [hj']
      exact ends_pure (Extends.refl env t) rfl
  | some j =>
      rw [hj, Option.map_some] at hitems
      obtain ⟨j', hj', hcount⟩ := Option.map_eq_some_iff.mp hitems.symm
      simp only [hj']
      cases j with
      | array items =>
          cases j' with
          | array items' =>
              have hlength : items'.length = items.length := by simpa [count?] using hcount
              rcases h.additional hset with ⟨t₁, hout, hextends, -⟩ | ⟨hmember, -⟩
              · simp only
                apply Ends.step hout
                cases hs : s.child .additional with
                | some c =>
                    simp only [selectAdditional, hs, Option.map_some, Option.isSome_some,
                      Bool.true_or, if_true]
                    exact ends_pure hextends rfl
                | none =>
                    simp only [selectAdditional, hs, Option.map_none, Option.isSome_none,
                      Bool.false_or, decide_eq_true_eq, hlength]
                    by_cases hsize : items.length = size
                    · simp only [hsize, ne_eq, not_true_eq_false, if_true, if_false]
                      exact ends_pure hextends rfl
                    · simp only [hsize, ne_eq, not_false_eq_true, if_true, if_false]
                      exact ends_check hextends
              · rw [hmember] at hj
                cases hj
          | _ => simp [count?] at hcount
      | _ =>
          cases j' with
          | array items' => simp [count?] at hcount
          | _ => exact ends_pure (Extends.refl env t) rfl

theorem fixNumbers_int {a : List (Json D)} {j : Json D} {n : ℤ}
    (h : fixNumbers env a j = .ok (.int n)) : j = .int n := by
  induction a generalizing j with
  | nil => simpa [fixNumbers] using h
  | cons t rest ih =>
      cases ht : t.asString with
      | error e => simp [fixNumbers, ht] at h
      | ok type =>
          simp only [fixNumbers, ht, ok_bind] at h
          have hfix := ih h
          cases j with
          | int m =>
              by_cases hnumber : type = "number"
              · simp [fixNumber, hnumber] at hfix
              · simpa [fixNumber, hnumber] using hfix
          | _ => simp [fixNumber] at hfix

theorem fixNumbers_idem {a : List (Json D)} {j j' : Json D}
    (h : fixNumbers env a j = .ok j') : fixNumbers env a j' = .ok j' := by
  induction a generalizing j with
  | nil => rfl
  | cons t rest ih =>
      cases ht : t.asString with
      | error e => simp [fixNumbers, ht] at h
      | ok type =>
          simp only [fixNumbers, ht, ok_bind] at h ⊢
          have hfix : fixNumber env type j' = j' := by
            cases j' with
            | int n =>
                have hj := fixNumbers_int h
                cases j with
                | int m =>
                    by_cases hnumber : type = "number"
                    · simp [fixNumber, hnumber] at hj
                    · simp [fixNumber, hnumber]
                | _ => simp [fixNumber] at hj
            | _ => rfl
          rw [hfix]
          exact ih h

theorem fixNumber_idem (type : String) (j : Json D) :
    fixNumber env type (fixNumber env type j) = fixNumber env type j := by
  cases j with
  | int n =>
      by_cases hnumber : type = "number"
      · simp [fixNumber, hnumber]
      · simp [fixNumber, hnumber]
  | _ => rfl

/-- A value that was converted is not converted again. -/
theorem typeFixup_idem {j j' : Json D} (h : typeFixup env s j = .ok j') :
    typeFixup env s j' = .ok j' := by
  have hsingle : ∀ t : Json D, (do return fixNumber env (← t.asString) j) = .ok j' →
      (do return fixNumber env (← t.asString) j') = (.ok j' : Except Failure (Json D)) := by
    intro t ht
    cases hs : t.asString with
    | error e => simp [hs] at ht
    | ok type =>
        simp only [hs, ok_bind, pure, Except.pure, Except.ok.injEq] at ht ⊢
        rw [← ht, fixNumber_idem]
  cases ht : s.member "type" with
  | none => simp [typeFixup, ht]
  | some t =>
      cases t with
      | array a =>
          rw [typeFixup_array ht] at h ⊢
          exact ⟨fixNumbers_idem h.1, h.2⟩
      | _ =>
          simp only [typeFixup, ht] at h ⊢
          exact hsingle _ h

end Select

section Defaults

/-- A default that was converted. -/
theorem grows_default {c d d' : Json D} (hd : c.member "default" = some d)
    (hd' : typeFixup env c d = .ok d') :
    Grows env c (modifyStep (.key "default") (fun _ => d') c) := by
  have hmember := member_modifyStep c "default"
  have hother : ∀ k, k ≠ "default" →
      (modifyStep (.key "default") (fun _ => d') c).member k = c.member k :=
    fun k hk => by rw [hmember, if_neg hk]
  have htype : c.type = .object := type_of_member hd
  have htype' : (modifyStep (.key "default") (fun _ => d') c).type = .object := by
    rw [type_modifyStep, htype]
  have hfix : typeFixup env (modifyStep (.key "default") (fun _ => d') c) =
      typeFixup env c := by
    funext j
    simp only [typeFixup, hother "type" (by simp)]
  have hkeyword : ∀ sel : Sel, sel.keyword ≠ "default" := by
    intro sel
    cases sel <;> simp [Sel.keyword]
  apply grows_of_children
  · exact {
      count := (count?_modifyStep c _ _).symm
      object := fun _ => htype'
      keyword := fun k hk => (hother k (fun h => hk (by simp [h]))).symm
      default := by
        rw [hmember, if_pos rfl, hd, hfix]
        simp only [Option.map_some, hd', typeFixup_idem hd']
      properties := by simp only [properties, hother "properties" (by simp)]
      listed := by rw [hother "properties" (by simp)]
      items := by rw [hother "items" (by simp)] }
  · intro sel
    exact child_congr htype htype' (hother _ (hkeyword sel))
  · intro sel c' hc'
    rw [realChild_congr htype htype' (hother _ (hkeyword sel)), hc']

theorem meets_setDefault (h : Holds env T t sels s) (object : Json D) (k : String) :
    Meets (outcome (setDefault env (paths sels) object k) t) (defaultOf env s object k)
      (Extends env t) (fun r added _ => r = added) := by
  obtain ⟨s', hreal, -, -, hchild⟩ := h.node
  have hrel := hchild (.property k)
  have hpath : paths sels ++ [.key "properties", .key k] =
      paths (sels ++ [.property k]) := (paths_snoc sels (.property k)).symm
  simp only [child] at hrel
  rw [setDefault, defaultOf, hpath]
  cases hp' : s'.property k with
  | none =>
      have hp : s.property k = none := by
        rw [hp'] at hrel
        cases hp : s.property k with
        | none => rfl
        | some p =>
            rw [hp] at hrel
            cases hrel
      have hnode : t.root.node (paths (sels ++ [.property k])) = none := by
        rw [property] at hp'
        rw [← hpath, node_append, node_of_real hreal]
        simp only [Option.bind_some, node, step_key]
        cases hm : s'.member "properties" with
        | none => rfl
        | some m =>
            rw [hm] at hp'
            simpa using hp'
      have hload : outcome (load (paths (sels ++ [.property k]))) t =
          (.error .undefined, t) := by
        simp [load, hnode]
      rw [hp]
      exact Meets.fail hload (Extends.refl env t)
  | some p' =>
      have hpresent : (t.root.real (sels ++ [.property k])).isSome := by
        rw [real_append, hreal]
        simp [real, realChild, child, hp']
      obtain ⟨p, hp, hholds⟩ := h.child hpresent
      obtain ⟨c, hreal', hload, halike, -⟩ := hholds.node
      have hdefault := halike.default
      simp only [child] at hp
      rw [hp]
      apply Meets.step hload
      cases hd : p.member "default" with
      | none =>
          rw [hd, Option.map_none] at hdefault
          have hd' : c.member "default" = none := by simpa using hdefault.symm
          simp only [hd', Option.bind_eq_bind, Option.bind_some, hd]
          exact meets_pure (Extends.refl env t) rfl
      | some d =>
          rw [hd, Option.map_some] at hdefault
          obtain ⟨d', hd', hfix⟩ := Option.map_eq_some_iff.mp hdefault.symm
          simp only [hd', Option.bind_eq_bind, Option.bind_some, hd]
          by_cases hk : object.hasKey k
          · simp only [hk, if_true]
            exact meets_pure (Extends.refl env t) rfl
          · simp only [hk, Bool.false_eq_true, if_false, ← hfix]
            apply Meets.bind_lift (Extends.refl env t)
            intro e he
            have hextends : Extends env t (t.modify (paths (sels ++ [.property k]))
                (modifyStep (.key "default") fun _ => e)) :=
              Extends.modify hreal' (grows_default hd' he)
            have hmodify : (t.modify (paths (sels ++ [.property k]) ++ [.key "default"])
                fun _ => e) = t.modify (paths (sels ++ [.property k]))
                  (modifyStep (.key "default") fun _ => e) := by
              simp only [Tree.modify, modify_append]
              rfl
            apply Meets.step (outcome_update _ t)
            rw [hmodify]
            apply Meets.bind_lift hextends
            intro v _
            exact meets_pure hextends rfl

theorem meets_setDefaultsLoop (h : Holds env T t sels s) (object : Json D)
    (names : List String) :
    Meets (outcome (setDefaultsLoop env (paths sels) object names) t)
      (defaultsLoop env s object names) (Extends env t) (fun r added _ => r = added) := by
  induction names generalizing t with
  | nil => exact meets_pure (Extends.refl env t) rfl
  | cons k rest ih =>
      rw [setDefaultsLoop, defaultsLoop]
      apply Meets.bind (meets_setDefault h object k)
      intro r added t₁ _ hextends hr
      subst hr
      have hrest := ih (h.mono hextends)
      apply Meets.bind (meets_after hrest hextends)
      intro r' added' t₂ _ hextends' hr'
      subst hr'
      exact meets_pure hextends' rfl

theorem meets_setDefaults (h : Holds env T t sels s) (object : Json D) :
    Meets (outcome (setDefaults env (paths sels) object) t)
      ((value? s.properties).bind (defaultsLoop env s object)) (Extends env t)
      (fun r added _ => r = added) := by
  obtain ⟨s', -, hload, halike, -⟩ := h.node
  rw [setDefaults]
  apply Meets.step hload
  rw [← halike.properties]
  apply Meets.bind_lift (Extends.refl env t)
  intro names _
  exact meets_setDefaultsLoop h object names

end Defaults

end Json

end Gearbox
