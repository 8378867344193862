import Gearbox.Json.Selection

/-!
# Validation of a tree with a schema in use

`Json::validate` with a sub-schema of a schema in use answers what the sub-schema of the
schema as it was parsed answers, in the order of `Json::validate`. Where there is no schema
for a child it follows a null pointer. With the error handlers of a schema that was just
parsed it makes of a value what `conform` makes of it.
-/

namespace Gearbox

namespace Json

open Refinement Refinement.Verdict

variable {D : Type} {env : Env D} {T s : Json D} {t : Tree D} {sels : List Sel}

section Parts

theorem ends_validateHead (h : Holds env T t sels s) (j : Json D) :
    Ends (.ok none) (.error .undefined) (outcome (validateHead env (paths sels) j) t)
      (judgeHead env ⟨sels, s⟩ j) (Extends env t) (fun r j' _ => r = some j') := by
  obtain ⟨s', -, hload, halike, -⟩ := h.node
  rw [validateHead]
  apply Ends.step hload
  rw [← halike.validType_eq, ← halike.typeFixup_eq]
  apply Ends.bind_check (Extends.refl env t) rfl
  intro _
  simp only [if_true]
  rw [← bind_passed (ofResult (typeFixup env s j))]
  apply Ends.bind_lift (Extends.refl env t)
  intro j' _
  exact ends_pure (Extends.refl env t) rfl

theorem ends_validateRest (h : Holds env T t sels s) (members : List (String × Json D)) :
    Ends (.ok none) (.error .undefined)
      (outcome (validateRest env (paths sels) members) t) (judgeRest env ⟨sels, s⟩ members)
      (Extends env t) (fun r j _ => r = some j) := by
  simp only [validateRest, judgeRest]
  rw [← ofOption_value?, ← andThen_assoc, ← ofOption_bind]
  apply Ends.bind_meets (meets_setDefaults h (.object members))
  intro r added t₁ _ hextends hr
  subst hr
  have h₁ := h.mono hextends
  obtain ⟨s₁, -, hload₁, halike₁, hchild₁⟩ := h₁.node
  apply Ends.step hload₁
  rw [← halike₁.validRequires_eq hchild₁]
  apply Ends.bind_check hextends rfl
  intro _
  exact ends_pure hextends rfl

theorem ends_validateSize (hset : SetOnSchemas env T) (h : Holds env T t sels s) (size : ℕ) :
    Ends (.ok false) (.error .undefined) (outcome (validateSize env (paths sels) size) t)
      (judgeMinSize env ⟨sels, s⟩ size >>= fun _ => judgeMaxSize env ⟨sels, s⟩ size)
      (Extends env t) (fun r _ _ => r = true) := by
  rw [validateSize]
  apply Ends.bind (ends_validMinSize hset h size (.error .undefined)) (fun _ _ => rfl)
    fun _ _ => rfl
  intro r _ t₁ _ hextends hr
  subst hr
  obtain ⟨s₁, -, hload₁, halike₁, -⟩ := (h.mono hextends).node
  simp only [if_true]
  apply Ends.step hload₁
  rw [← halike₁.validMaxSize_eq]
  exact ends_check hextends

/-- A scalar that is not null. -/
theorem ends_validate_scalar (h : Holds env T t sels s) (j : Json D) :
    Ends (.ok none) (.error .undefined) (outcome (do
        match ← validateHead env (paths sels) j with
        | none => return none
        | some j' =>
          if ← validValue env (env.errHandler (paths sels)) (← load (paths sels)) j' then
            return some j'
          else
            return none : SchemaM D (Option (Json D))) t)
      (judgeScalar env ⟨sels, s⟩ j) (Extends env t) (fun r j' _ => r = some j') := by
  apply Ends.bind (ends_validateHead h j) (fun _ _ => rfl) fun _ _ => rfl
  intro r j' t₁ _ hextends hr
  subst hr
  obtain ⟨s₁, -, hload₁, halike₁, -⟩ := (h.mono hextends).node
  simp only
  apply Ends.step hload₁
  rw [← halike₁.validValue_eq]
  apply Ends.bind_check hextends rfl
  intro _
  exact ends_pure hextends rfl

end Parts

section Validate

mutual

theorem ends_validate (hset : SetOnSchemas env T) :
    ∀ (j : Json D) {t : Tree D} {sels : List Sel} {s : Json D}, Holds env T t sels s →
    Ends (.ok none) (.error .undefined) (outcome (validate env (paths sels) j) t)
      (judge env ⟨sels, s⟩ j) (Extends env t) (fun r j' _ => r = some j')
  | .undef, t, sels, s, h => by
      simp only [validate, judge]
      exact ends_validateHead h .undef
  | .bool b, t, sels, s, h => by
      simp only [validate, judge]
      exact ends_validate_scalar h (.bool b)
  | .int n, t, sels, s, h => by
      simp only [validate, judge]
      exact ends_validate_scalar h (.int n)
  | .double x, t, sels, s, h => by
      simp only [validate, judge]
      exact ends_validate_scalar h (.double x)
  | .string v, t, sels, s, h => by
      simp only [validate, judge]
      exact ends_validate_scalar h (.string v)
  | .object o, t, sels, s, h => by
      simp only [validate, judge]
      apply Ends.bind (ends_validateHead h (.object o)) (fun _ _ => rfl) fun _ _ => rfl
      intro r _ t₁ _ hextends hr
      subst hr
      have hmembers := ends_validateMembers hset o (h.mono hextends)
      apply Ends.bind (ends_after hmembers hextends) (fun _ _ => rfl) fun _ _ => rfl
      intro r' o' t₂ _ hextends' hr'
      subst hr'
      have hrest := ends_validateRest (h.mono hextends') o'
      exact ends_after hrest hextends'
  | .array a, t, sels, s, h => by
      simp only [validate, judge]
      apply Ends.bind (ends_validateHead h (.array a)) (fun _ _ => rfl) fun _ _ => rfl
      intro r _ t₁ _ hextends hr
      subst hr
      rw [← andThen_assoc]
      have hsize := ends_validateSize hset (h.mono hextends) a.length
      apply Ends.bind (ends_after hsize hextends) (fun _ _ => rfl) fun _ _ => rfl
      intro r' _ t₂ _ hextends' hr'
      subst hr'
      have helements := ends_validateElements hset a (toUInt32 a.length) 0
        (h.mono hextends')
      apply Ends.bind (ends_after helements hextends') (fun _ _ => rfl) fun _ _ => rfl
      intro r'' a' t₃ _ hextends'' hr''
      subst hr''
      exact ends_pure hextends'' rfl

theorem ends_validateMembers (hset : SetOnSchemas env T) :
    ∀ (o : List (String × Json D)) {t : Tree D} {sels : List Sel} {s : Json D},
    Holds env T t sels s →
    Ends (.ok none) (.error .undefined) (outcome (validateMembers env (paths sels) o) t)
      (judgeMembers env ⟨sels, s⟩ o) (Extends env t) (fun r o' _ => r = some o')
  | [], t, sels, s, h => by
      simp only [validateMembers, judgeMembers]
      exact ends_pure (Extends.refl env t) rfl
  | (k, j) :: rest, t, sels, s, h => by
      simp only [validateMembers, judgeMembers]
      apply Ends.bind (ends_getChildSchema hset h k)
        (fun hv => absurd hv (judgeKey_ne_failed env ⟨sels, s⟩ k)) fun _ _ => rfl
      rintro r child t₁ - hextends ⟨rfl, hholds, -⟩
      have hj := ends_validate hset j hholds
      apply Ends.bind (ends_after hj hextends) (fun _ _ => rfl) fun _ _ => rfl
      intro r' j' t₂ _ hextends' hr'
      subst hr'
      have hrest := ends_validateMembers hset rest (h.mono hextends')
      apply Ends.bind (ends_after hrest hextends') (fun _ _ => rfl) fun _ _ => rfl
      intro r'' rest' t₃ _ hextends'' hr''
      subst hr''
      exact ends_pure hextends'' rfl

theorem ends_validateElements (hset : SetOnSchemas env T) :
    ∀ (a : List (Json D)) (size i : ℕ) {t : Tree D} {sels : List Sel} {s : Json D},
    Holds env T t sels s →
    Ends (.ok none) (.error .undefined)
      (outcome (validateElements env (paths sels) size i a) t)
      (judgeElements env ⟨sels, s⟩ size i a) (Extends env t) (fun r a' _ => r = some a')
  | [], size, i, t, sels, s, h => by
      simp only [validateElements, judgeElements]
      exact ends_pure (Extends.refl env t) rfl
  | j :: rest, size, i, t, sels, s, h => by
      simp only [validateElements, judgeElements]
      by_cases hi : i < size
      · simp only [hi, if_true]
        apply Ends.bind (ends_getChildSchemaAt hset h (toInt32 i))
          (fun hv => absurd hv (judgeIndex_ne_failed env ⟨sels, s⟩ _)) fun _ _ => rfl
        rintro r child t₁ - hextends ⟨rfl, hholds, -⟩
        have hj := ends_validate hset j hholds
        apply Ends.bind (ends_after hj hextends) (fun _ _ => rfl) fun _ _ => rfl
        intro r' j' t₂ _ hextends' hr'
        subst hr'
        have hrest := ends_validateElements hset rest size (i + 1) (h.mono hextends')
        apply Ends.bind (ends_after hrest hextends') (fun _ _ => rfl) fun _ _ => rfl
        intro r'' rest' t₃ _ hextends'' hr''
        subst hr''
        exact ends_pure hextends'' rfl
      · simp only [hi, if_false]
        exact ends_pure (Extends.refl env t) rfl

end

end Validate

/-- With the error handlers of a schema that was just parsed. -/
theorem meets_validate (henv : ∀ p, env.errHandler p = onErrorThrow) (j : Json D)
    (h : Holds env T t sels s) :
    Meets (outcome (validate env (paths sels) j) t) (conform env (whole env) s j)
      (Extends env t) (fun r j' _ => r = some j') := by
  have hends := ends_validate (setOnSchemas_of_throwing henv T) j h
  rw [judge_respects (respects_throwing henv) j ⟨sels, s⟩] at hends
  exact hends.meets

end Json

end Gearbox
