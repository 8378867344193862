import Gearbox.Json.Store

/-!
# The checks of a schema in use

The checks of a sub-schema in use give the result of the checks of the sub-schema as it
was parsed. A check asks the error handler of its schema one question after another, as long
as the answers are `true` (`Asks`). So it does not return `false` if the handler does not, and
it passes without a question if the handler never answers `true`.
-/

namespace Gearbox

namespace Json

open Refinement

variable {D : Type}

namespace Alike

variable {env : Env D} {s s' : Json D}

theorem typeFixup_eq (h : Alike env s s') : typeFixup env s = typeFixup env s' := by
  funext j
  simp only [typeFixup, h.keyword "type" (by simp)]

theorem validType_eq (h : Alike env s s') (handler : ErrorHandler) (kind : Kind) :
    validType handler s kind = validType handler s' kind := by
  simp only [validType, h.keyword "type" (by simp), h.keyword "disallow" (by simp)]

theorem validValue_eq (h : Alike env s s') (handler : ErrorHandler) (j : Json D) :
    validValue env handler s j = validValue env handler s' j := by
  simp only [validValue, validMinimum, validMaximum, validMaxDecimal, validMinLength,
    validMaxLength, validFormat, formatOf, validPattern, validEnum, h.keyword "minimum" (by simp),
    h.keyword "maximum" (by simp), h.keyword "maxDecimal" (by simp),
    h.keyword "minLength" (by simp), h.keyword "maxLength" (by simp),
    h.keyword "format" (by simp), h.keyword "pattern" (by simp),
    h.keyword "enum" (by simp)]

theorem validMaxSize_eq (h : Alike env s s') (handler : ErrorHandler) (size : ℕ) :
    validMaxSize handler s size = validMaxSize handler s' size := by
  simp only [validMaxSize, h.keyword "maxItems" (by simp)]

theorem validMinItems_eq (h : Alike env s s') (handler : ErrorHandler) (size : ℕ) :
    validMinItems handler s size = validMinItems handler s' size := by
  simp only [validMinItems, h.keyword "minItems" (by simp)]

theorem validRequired_eq (h : Alike env s s') (handler : ErrorHandler) (object : Json D)
    (k : String) :
    validRequired handler object s k = validRequired handler object s' k := by
  simp only [validRequired, isOptional, h.keyword "optional" (by simp),
    h.keyword "requires" (by simp)]

theorem validRequires_eq (h : Alike env s s')
    (hchild : ∀ sel, Option.Rel (Alike env) (s.child sel) (s'.child sel))
    (handler : ErrorHandler) (object : Json D) :
    validRequires handler s object = validRequires handler s' object := by
  have hproperty : validProperty handler s object = validProperty handler s' object := by
    funext k
    have hrel := hchild (.property k)
    simp only [child] at hrel
    cases hp : s.property k with
    | none =>
        rw [hp] at hrel
        cases hp' : s'.property k with
        | none => simp only [validProperty, hp, hp']
        | some p' =>
            rw [hp'] at hrel
            cases hrel
    | some p =>
        rw [hp] at hrel
        cases hp' : s'.property k with
        | none =>
            rw [hp'] at hrel
            cases hrel
        | some p' =>
            rw [hp'] at hrel
            cases hrel with
            | some halike =>
                simp only [validProperty, hp, hp',
                  halike.validRequired_eq handler object k]
  simp only [validRequires, h.properties, hproperty]

end Alike

section All

variable {α : Type} {f : α → Except Failure Bool} {l : List α}

theorem forall_of_allM (h : l.allM f = .ok true) : ∀ x ∈ l, f x = .ok true := by
  induction l with
  | nil => simp
  | cons a rest ih =>
      rw [List.allM] at h
      cases hf : f a with
      | error e => simp [hf] at h
      | ok b =>
          cases b with
          | false => simp [hf, pure, Except.pure] at h
          | true =>
              simp only [hf, ok_bind] at h
              intro x hx
              rcases List.mem_cons.mp hx with rfl | hx
              · exact hf
              · exact ih h x hx

theorem allM_of_forall (h : ∀ x ∈ l, f x = .ok true) : l.allM f = .ok true := by
  induction l with
  | nil => rfl
  | cons x rest ih =>
      rw [List.allM, h x List.mem_cons_self]
      exact ih fun y hy => h y (List.mem_cons_of_mem x hy)

end All

section Asks

/-- A check that does not return `false`. -/
def Throws (r : Except Failure Bool) : Prop :=
  r ≠ .ok false

theorem throws_handler (message : String) : Throws (onErrorThrow message) := by
  simp [Throws, onErrorThrow]

/-- A check as a function of the error handler: it passes, it throws, it returns what the
handler answers, or it makes two such checks. -/
inductive Asks : (ErrorHandler → Except Failure Bool) → Prop where
  | pass : Asks fun _ => .ok true
  | raise (e : Failure) : Asks fun _ => .error e
  | ask (m : String) : Asks fun h => h m
  | both {f g : ErrorHandler → Except Failure Bool} (hf : Asks f) (hg : Asks g) :
      Asks fun h => both (f h) (g h)

theorem both_eq_true {a b : Except Failure Bool} :
    both a b = .ok true ↔ a = .ok true ∧ b = .ok true := by
  cases a with
  | error e => simp [both]
  | ok v => cases v <;> simp [both, pure, Except.pure]

/-- A handler that does not return `false`. -/
theorem Asks.throws {f : ErrorHandler → Except Failure Bool} (hf : Asks f) {h : ErrorHandler}
    (hh : ∀ m, Throws (h m)) : Throws (f h) := by
  induction hf with
  | pass => simp [Throws]
  | raise e => simp [Throws]
  | ask m => exact hh m
  | @both f g _ _ ihf ihg =>
      simp only [Throws] at ihf ihg ⊢
      cases hfh : f h with
      | error e => simp [Json.both]
      | ok v =>
          cases v with
          | false => exact absurd hfh ihf
          | true => exact ihg

/-- A handler that does not return `true`. -/
theorem Asks.of_passes {f : ErrorHandler → Except Failure Bool} (hf : Asks f)
    {h : ErrorHandler} (hh : ∀ m, h m ≠ .ok true) (hpasses : f h = .ok true)
    (h' : ErrorHandler) : f h' = .ok true := by
  induction hf with
  | pass => rfl
  | raise e => cases hpasses
  | ask m => exact absurd hpasses (hh m)
  | both _ _ ihf ihg =>
      obtain ⟨hfh, hgh⟩ := both_eq_true.mp hpasses
      exact both_eq_true.mpr ⟨ihf hfh, ihg hgh⟩

theorem asks_bind {α : Type} {r : Except Failure α}
    {f : α → ErrorHandler → Except Failure Bool} (hf : ∀ a, Asks (f a)) :
    Asks fun h => r >>= fun a => f a h := by
  cases r with
  | error e => exact .raise e
  | ok a => exact hf a

theorem asks_ite {p : Prop} [Decidable p] {f g : ErrorHandler → Except Failure Bool}
    (hf : Asks f) (hg : Asks g) : Asks fun h => if p then f h else g h := by
  by_cases hp : p
  · simpa only [hp, if_true] using hf
  · simpa only [hp, if_false] using hg

theorem asks_allM {α : Type} {f : α → ErrorHandler → Except Failure Bool} (l : List α)
    (hf : ∀ a, Asks (f a)) : Asks fun h => l.allM fun a => f a h := by
  induction l with
  | nil => exact .pass
  | cons a l ih =>
      have hcons : ∀ h : ErrorHandler, (a :: l).allM (fun a => f a h) =
          both (f a h) (l.allM fun a => f a h) := by
        intro h
        rw [List.allM, both]
        congr 1
        funext b
        cases b <;> rfl
      simp only [hcons]
      exact .both (hf a) ih

variable (env : Env D) (s : Json D)

theorem asks_validType (kind : Kind) : Asks fun h => validType h s kind := by
  simp only [validType]
  cases s.member "type" with
  | none =>
      cases s.member "disallow" with
      | none => exact .pass
      | some d => exact asks_bind fun b => asks_ite (.ask _) .pass
  | some t =>
      cases s.member "disallow" with
      | none => exact asks_bind fun b => asks_ite .pass (.ask _)
      | some d =>
          exact asks_bind fun b => asks_ite .pass
            (asks_bind fun b' => asks_ite (.ask _) .pass)

theorem asks_validMaxSize (size : ℕ) : Asks fun h => validMaxSize h s size := by
  simp only [validMaxSize]
  cases s.member "maxItems" with
  | none => exact .pass
  | some m => exact asks_bind fun n => asks_ite (.ask _) .pass

theorem asks_validMinItems (size : ℕ) : Asks fun h => validMinItems h s size := by
  simp only [validMinItems]
  cases s.member "minItems" with
  | none => exact .pass
  | some m => exact asks_bind fun n => asks_ite (.ask _) .pass

theorem asks_validMinimum (j : Json D) : Asks fun h => validMinimum env h s j := by
  simp only [validMinimum, validMinimum.check]
  cases s.member "minimum" with
  | none => exact .pass
  | some m =>
      cases m with
      | int n => exact asks_ite .pass (.ask _)
      | double x => exact asks_ite .pass (.ask _)
      | _ => exact .pass

theorem asks_validMaximum (j : Json D) : Asks fun h => validMaximum env h s j := by
  simp only [validMaximum, validMaximum.check]
  cases s.member "maximum" with
  | none => exact .pass
  | some m =>
      cases m with
      | int n => exact asks_ite .pass (.ask _)
      | double x => exact asks_ite .pass (.ask _)
      | _ => exact .pass

theorem asks_validMaxDecimal (j : Json D) : Asks fun h => validMaxDecimal env h s j := by
  simp only [validMaxDecimal]
  cases j with
  | double x =>
      cases s.member "maxDecimal" with
      | none => exact .pass
      | some m => exact asks_bind fun n => asks_ite (.ask _) .pass
  | _ => exact .pass

theorem asks_validMinLength (j : Json D) : Asks fun h => validMinLength h s j := by
  simp only [validMinLength]
  cases j with
  | string v =>
      cases s.member "minLength" with
      | none => exact .pass
      | some m => exact asks_bind fun n => asks_ite (.ask _) .pass
  | _ => exact .pass

theorem asks_validMaxLength (j : Json D) : Asks fun h => validMaxLength h s j := by
  simp only [validMaxLength]
  cases j with
  | string v =>
      cases s.member "maxLength" with
      | none => exact .pass
      | some m => exact asks_bind fun n => asks_ite (.ask _) .pass
  | _ => exact .pass

theorem asks_validFormat (j : Json D) : Asks fun h => validFormat env h s j := by
  simp only [validFormat]
  cases j with
  | string v =>
      apply asks_bind
      intro format
      apply asks_ite .pass
      cases env.formats format with
      | none => exact .pass
      | some checker => exact asks_ite .pass (.ask _)
  | _ => exact .pass

theorem asks_validPattern (j : Json D) : Asks fun h => validPattern env h s j := by
  simp only [validPattern]
  cases j with
  | string v =>
      cases s.member "pattern" with
      | none => exact .pass
      | some p =>
          apply asks_bind
          intro pattern
          cases env.regex pattern with
          | none => exact .raise _
          | some rx => exact asks_ite .pass (.ask _)
  | _ => exact .pass

theorem asks_validEnum (j : Json D) : Asks fun h => validEnum env h s j := by
  simp only [validEnum]
  cases s.member "enum" with
  | none => exact .pass
  | some e => exact asks_ite .pass (.ask _)

theorem asks_validValue (j : Json D) : Asks fun h => validValue env h s j :=
  .both (asks_validMinimum env s j) <|
  .both (asks_validMaximum env s j) <|
  .both (asks_validMaxDecimal env s j) <|
  .both (asks_validMinLength s j) <|
  .both (asks_validMaxLength s j) <|
  .both (asks_validFormat env s j) <|
  .both (asks_validPattern env s j) (asks_validEnum env s j)

theorem asks_validRequire (object : Json D) (k req : String) :
    Asks fun h => validRequire h object k req :=
  asks_ite .pass (.ask _)

theorem asks_validRequired (object : Json D) (k : String) :
    Asks fun h => validRequired h object s k := by
  simp only [validRequired]
  apply asks_bind
  intro optional
  apply asks_ite
  · refine asks_ite ?_ .pass
    cases s.member "requires" with
    | none => exact .pass
    | some r =>
        cases r with
        | string req => exact asks_validRequire object k req
        | array a =>
            exact asks_allM _ fun r => asks_bind fun req => asks_validRequire object k req
        | _ => exact .pass
  · exact asks_ite .pass (.ask _)

theorem asks_validRequires (object : Json D) : Asks fun h => validRequires h s object := by
  apply asks_bind
  intro names
  apply asks_allM
  intro k
  simp only [validProperty]
  cases s.property k with
  | none => exact .raise _
  | some p => exact asks_validRequired p object k

end Asks

end Json

end Gearbox
