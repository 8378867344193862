import Gearbox.Json.Agreement
import Gearbox.Json.Uses

/-!
# Error handlers that return

`Json::setErrorHandler` sets the error handler of one node of a schema. A handler that
returns leaves it to the caller to go on, and `Json::validate` and the parser have to treat
its answer alike: `true` lets the remaining checks proceed, `false` ends the call with a
failure, and so does a child for which there is no schema, whatever the handler answers
there (`Obeys`).

The parser looks at the pointer that `getChildSchema` returns. `Json::validate` passes it on
to the call for the child. So the promise holds if and only if `Json::validate` does not
come to a child without a schema under a schema whose handler returns (`Lacks`).
-/

namespace Gearbox

namespace Json

open Refinement Refinement.Verdict

variable {D : Type} {env : Env D} {T : Json D}

/-- An error handler is set on one more schema. -/
theorem SetOnSchemas.setErrorHandler (hset : SetOnSchemas env T) {sels : List Sel}
    (hschema : ∀ s, T.sub sels = some s → s.type = .object ∨ s.type = .undef)
    (h : ErrorHandler) : SetOnSchemas (env.setErrorHandler (paths sels) h) T := by
  intro sels' s hs hobject hundef m
  have hne : paths sels' ≠ paths sels := by
    intro heq
    rw [paths_injective heq] at hs
    rcases hschema s hs with hs | hs
    · exact hobject hs
    · exact hundef hs
  simp only [Env.setErrorHandler, if_neg hne]
  exact hset sels' s hs hobject hundef m

section Missing

mutual

/-- `Json::validate` comes to a child for which there is no schema, and the handler that is
called there returns. All checks before this child pass, or their handlers return `true`. -/
def Lacks (env : Env D) (place : Place D) : Json D → Prop
  | .object o => (∃ j, judgeHead env place (.object o) = passed j) ∧ LacksMember env place o
  | .array a => (∃ j, judgeHead env place (.array a) = passed j) ∧
      judgeMinSize env place a.length = passed () ∧
      judgeMaxSize env place a.length = passed () ∧
      LacksElement env place (toUInt32 a.length) 0 a
  | _ => False

def LacksMember (env : Env D) (place : Place D) : List (String × Json D) → Prop
  | [] => False
  | (k, j) :: rest => judgeKey env place k = missing ∨
      ∃ child, judgeKey env place k = passed child ∧
        (Lacks env child j ∨
          (∃ j', judge env child j = passed j') ∧ LacksMember env place rest)

def LacksElement (env : Env D) (place : Place D) (size i : ℕ) : List (Json D) → Prop
  | [] => False
  | j :: rest => i < size ∧ (judgeIndex env place (toInt32 i) = missing ∨
      ∃ child, judgeIndex env place (toInt32 i) = passed child ∧
        (Lacks env child j ∨
          (∃ j', judge env child j = passed j') ∧ LacksElement env place size (i + 1) rest))

end

theorem judgeHead_ne_missing (env : Env D) (place : Place D) (j : Json D) :
    judgeHead env place j ≠ missing :=
  bind_ne_missing (ofCheck_ne_missing _) fun _ => ofResult_ne_missing _

theorem judgeScalar_ne_missing (env : Env D) (place : Place D) (j : Json D) :
    judgeScalar env place j ≠ missing := by
  apply bind_ne_missing (judgeHead_ne_missing env place j)
  intro j'
  exact bind_ne_missing (ofCheck_ne_missing _) fun _ => nofun

theorem judgeMinSize_ne_missing (env : Env D) (place : Place D) (size : ℕ) :
    judgeMinSize env place size ≠ missing := by
  apply bind_ne_missing (ofCheck_ne_missing _)
  intro _
  split
  · split
    · exact nofun
    · exact ofCheck_ne_missing _
  · exact nofun

theorem judgeRest_ne_missing (env : Env D) (place : Place D)
    (members : List (String × Json D)) : judgeRest env place members ≠ missing := by
  apply bind_ne_missing (ofResult_ne_missing _)
  intro names
  apply bind_ne_missing (ofOption_ne_missing _)
  intro added
  exact bind_ne_missing (ofCheck_ne_missing _) fun _ => nofun

/-- The verdict on a child and on what comes after it. -/
theorem bind_child_eq_missing {α β γ : Type} (v : Verdict (Place D))
    (f : Place D → Verdict α) (w : Verdict β) (g : α → β → γ) :
    (v >>= fun child => f child >>= fun a => w >>= fun b => pure (g a b)) = missing ↔
      v = missing ∨ ∃ child, v = passed child ∧
        (f child = missing ∨ (∃ a, f child = passed a) ∧ w = missing) := by
  have hlast : ∀ a, (w >>= fun b => (pure (g a b) : Verdict γ)) = missing ↔ w = missing :=
    fun a => bind_eq_missing_iff fun _ => nofun
  simp only [bind_eq_missing (v := v), bind_eq_missing (v := f _), hlast, exists_and_right]

mutual

theorem judge_eq_missing : ∀ (j : Json D) (place : Place D),
    judge env place j = missing ↔ Lacks env place j
  | .undef, place => by
      simp only [judge, Lacks, judgeHead_ne_missing]
  | .bool b, place => by
      simp only [judge, Lacks, judgeScalar_ne_missing]
  | .int n, place => by
      simp only [judge, Lacks, judgeScalar_ne_missing]
  | .double x, place => by
      simp only [judge, Lacks, judgeScalar_ne_missing]
  | .string v, place => by
      simp only [judge, Lacks, judgeScalar_ne_missing]
  | .object o, place => by
      rw [judge, Lacks, bind_eq_missing_of_ne (judgeHead_ne_missing env place _),
        bind_eq_missing_iff (judgeRest_ne_missing env place), judgeMembers_eq_missing o place]
      simp only [exists_and_right]
  | .array a, place => by
      have hunit : ∀ v : Verdict Unit, (∃ u, v = passed u) ↔ v = passed () :=
        fun v => ⟨fun ⟨_, h⟩ => h, fun h => ⟨_, h⟩⟩
      have hlast : (judgeElements env place (toUInt32 a.length) 0 a >>= fun a' =>
          (pure (.array a') : Verdict (Json D))) = missing ↔
          judgeElements env place (toUInt32 a.length) 0 a = missing :=
        bind_eq_missing_iff fun _ => nofun
      rw [judge, Lacks, bind_eq_missing_of_ne (judgeHead_ne_missing env place _),
        bind_eq_missing_of_ne (judgeMinSize_ne_missing env place a.length)]
      simp only [bind_eq_missing_of_ne (v := judgeMaxSize env place a.length)
        (ofCheck_ne_missing _), hlast, judgeElements_eq_missing a (toUInt32 a.length) 0 place,
        exists_and_right, hunit]

theorem judgeMembers_eq_missing : ∀ (o : List (String × Json D)) (place : Place D),
    judgeMembers env place o = missing ↔ LacksMember env place o
  | [], place => by simp [judgeMembers, LacksMember]
  | (k, j) :: rest, place => by
      rw [judgeMembers, LacksMember, bind_child_eq_missing,
        judgeMembers_eq_missing rest place]
      simp only [judge_eq_missing j]

theorem judgeElements_eq_missing : ∀ (a : List (Json D)) (size i : ℕ) (place : Place D),
    judgeElements env place size i a = missing ↔ LacksElement env place size i a
  | [], size, i, place => by simp [judgeElements, LacksElement]
  | j :: rest, size, i, place => by
      rw [judgeElements, LacksElement]
      by_cases hi : i < size
      · rw [if_pos hi, bind_child_eq_missing,
          judgeElements_eq_missing rest size (i + 1) place]
        simp only [judge_eq_missing j, hi, true_and]
      · simp [hi]

end

end Missing

/-- What is promised for the error handlers of a schema `T` that is in use as `t`. The
answer of a call is the verdict. `Json::validate` returns `false` and the parser throws a
parse error when a handler has returned `false`, and when there is no schema for a child.
Where the verdict is `raised` the call does not answer; that may be an exception of a
handler or the end of a check that no handler decides.
If the handlers that return all return `true`, no check ends the work. If they all return
`false`, the work goes on only with what the schema makes of the document. -/
structure Obeys (env : Env D) (T : Json D) (t : Tree D) (j : Json D) (d : Doc) : Prop where
  validates : Ends (.ok none) (.ok none) (outcome (validate env [] j) t)
    (judge env ⟨[], T⟩ j) (fun _ => True) (fun r j' _ => r = some j')
  parses : Ends parseError parseError (parse env (.document d) (some t))
    (receive env (some ⟨[], T⟩) d) (fun _ => True) (fun _ j' c => c.json.root = j')
  proceeds : (∀ p m, env.errHandler p m ≠ .ok false) →
    judge env ⟨[], T⟩ j ≠ failed ∧ receive env (some ⟨[], T⟩) d ≠ failed
  refuses : (∀ p m, env.errHandler p m ≠ .ok true) →
    Within (judge env ⟨[], T⟩ j) (conform env (whole env) T j) ∧
      Within (receive env (some ⟨[], T⟩) d) (read env (some T) d)

section Calls

variable {t : Tree D} {j : Json D} {d : Doc}

/-- A null pointer is followed. -/
theorem validate_of_lacks (hset : SetOnSchemas env T) (ht : Extends env (Tree.fresh T) t)
    (hlacks : Lacks env ⟨[], T⟩ j) :
    (outcome (validate env [] j) t).1 = .error .undefined := by
  have hends := ends_validate hset j (holds_root ht)
  rw [(judge_eq_missing j ⟨[], T⟩).mpr hlacks] at hends
  exact hends.2

theorem not_obeys_of_lacks (hset : SetOnSchemas env T) (ht : Extends env (Tree.fresh T) t)
    (hlacks : Lacks env ⟨[], T⟩ j) : ¬ Obeys env T t j d := by
  intro hobeys
  have hvalidates := hobeys.validates
  rw [(judge_eq_missing j ⟨[], T⟩).mpr hlacks] at hvalidates
  have hnone : (outcome (validate env [] j) t).1 = .ok none := hvalidates.2
  rw [validate_of_lacks hset ht hlacks] at hnone
  cases hnone

theorem obeys_of_not_lacks (hset : SetOnSchemas env T) (ht : Extends env (Tree.fresh T) t)
    (hlacks : ¬ Lacks env ⟨[], T⟩ j) : Obeys env T t j d where
  validates := by
    have hends := ends_validate hset j (holds_root ht)
    have hne : judge env ⟨[], T⟩ j ≠ missing := by
      rw [ne_eq, judge_eq_missing]
      exact hlacks
    exact (hends.of_ne_missing hne (.ok none)).mono (fun _ _ => trivial)
      fun _ _ _ _ _ hr => hr
  parses := (ends_parse hset ht d).mono (fun _ _ => trivial) fun _ _ _ _ _ hroot => hroot
  proceeds := fun hanswers =>
    ⟨judge_respects (respects_answers hanswers) j ⟨[], T⟩,
      receive_respects (respects_answers hanswers) d (some ⟨[], T⟩)⟩
  refuses := fun hrefusals =>
    ⟨judge_respects (respects_refusals hrefusals) j ⟨[], T⟩,
      receive_respects (respects_refusals hrefusals) d (some ⟨[], T⟩)⟩

/-- After any uses of a schema the next calls obey its handlers if and only if
`Json::validate` does not come to a child without a schema. -/
theorem obeys_iff (hset : SetOnSchemas env T) (uses : List (Use D)) (j : Json D) (d : Doc) :
    Obeys env T (Use.runAll env uses (Tree.fresh T)) j d ↔ ¬ Lacks env ⟨[], T⟩ j := by
  have hused := extends_runAll hset (Extends.refl env (Tree.fresh T)) uses
  constructor
  · intro hobeys hlacks
    exact not_obeys_of_lacks hset hused hlacks hobeys
  · exact obeys_of_not_lacks hset hused

end Calls

section Samples

/-- A schema for objects with one member and no others. -/
def oneMember : Json ℤ :=
  .object [("additionalProperties", .bool false),
    ("properties", .object [("k", .object [("type", .string "string")])])]

/-- Warnings are written for the schema and for the schema of its member. -/
def warnings : Env ℤ :=
  (wholeNumbers.setErrorHandler (paths []) onErrorWarn).setErrorHandler
    (paths [.property "k"]) onErrorWarn

theorem setOnSchemas_warnings : SetOnSchemas warnings oneMember := by
  have hthrowing : SetOnSchemas wholeNumbers oneMember :=
    setOnSchemas_of_throwing (fun _ => rfl) oneMember
  have hroot : SetOnSchemas (wholeNumbers.setErrorHandler (paths []) onErrorWarn) oneMember := by
    apply hthrowing.setErrorHandler
    rintro s ⟨⟩
    exact .inl rfl
  apply hroot.setErrorHandler
  rintro s ⟨⟩
  exact .inl rfl

/-- A member of the wrong type passes with a warning. -/
theorem judge_wrong_type :
    judge warnings ⟨[], oneMember⟩ (.object [("k", .undef)]) =
      passed (.object [("k", .undef)]) := rfl

/-- There is no schema for any other member. -/
theorem judge_unlisted :
    judge warnings ⟨[], oneMember⟩ (.object [("x", .undef)]) = missing := rfl

theorem obeys_sample :
    SetOnSchemas warnings oneMember ∧
      Obeys warnings oneMember
        (Use.runAll warnings [.validate (.object [("k", .int 3)])] (Tree.fresh oneMember))
        (.object [("k", .undef)]) (.map [("x", .null)]) := by
  refine ⟨setOnSchemas_warnings, (obeys_iff setOnSchemas_warnings _ _ _).mpr ?_⟩
  rw [← judge_eq_missing, judge_wrong_type]
  exact nofun

/-- `Json::validate` follows a null pointer at a member that the schema does not list. -/
theorem not_obeys :
    (outcome (validate warnings [] (.object [("x", .undef)])) (Tree.fresh oneMember)).1 =
        .error .undefined ∧
      ¬ Obeys warnings oneMember (Tree.fresh oneMember) (.object [("x", .undef)])
        (.map [("x", .null)]) := by
  have hfresh := Extends.refl warnings (Tree.fresh oneMember)
  have hlacks := (judge_eq_missing _ _).mp judge_unlisted
  exact ⟨validate_of_lacks setOnSchemas_warnings hfresh hlacks,
    not_obeys_of_lacks setOnSchemas_warnings hfresh hlacks⟩

end Samples

end Json

end Gearbox
