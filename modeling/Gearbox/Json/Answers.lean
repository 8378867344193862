import Gearbox.Json.Judge
import Gearbox.Json.Order

/-!
# Verdicts and the answers of the handlers

How the verdicts with the error handlers of a schema are related to what `conform` and
`read` say, which know only the handler of a new node. A relation that the parts of a
verdict respect is one that holds of the verdicts on all values and documents (`judge_respects`,
`receive_respects`). There are three of them. With the handlers of new nodes the verdict is
the strict result. If no handler returns `false`, then no check ends the work. If no handler
returns `true`, then the work goes on only with the strict result.
-/

namespace Gearbox

namespace Json

open Refinement Refinement.Verdict

variable {D : Type} {env : Env D}

section Fixup

theorem fixNumbers_of_ne_int (env : Env D) {j : Json D} (hj : j.type ≠ .int)
    (a : List (Json D)) :
    value? (fixNumbers env a j) = (value? (fixNumbers env a .undef)).map fun _ => j := by
  induction a with
  | nil => rfl
  | cons t rest ih =>
      cases ht : t.asString with
      | error e => simp [fixNumbers, ht, value?]
      | ok type =>
          have hfix : fixNumber env type j = j := by
            cases j with
            | int n => exact absurd rfl hj
            | _ => rfl
          have hundef : fixNumber env type (.undef : Json D) = .undef := rfl
          simp only [fixNumbers, ht, ok_bind, hfix, hundef, ih]

/-- The conversion for a list of types. -/
theorem typeFixup_array {s : Json D} {a : List (Json D)}
    (ht : s.member "type" = some (.array a)) (j j' : Json D) :
    typeFixup env s j = .ok j' ↔
      fixNumbers env (a.take (2 ^ 32)) j = .ok j' ∧ a.length < 2 ^ 32 := by
  simp only [typeFixup, ht]
  cases hfix : fixNumbers env (a.take (2 ^ 32)) j with
  | error e => simp only [error_bind, reduceCtorEq, false_and]
  | ok i =>
      rw [ok_bind]
      by_cases hlength : a.length < 2 ^ 32
      · rw [if_pos hlength]
        constructor
        · intro h
          exact ⟨h, hlength⟩
        · intro h
          exact h.1
      · rw [if_neg hlength]
        constructor
        · intro h
          cases h
        · intro h
          exact absurd h.2 hlength

theorem typeFixup_of_ne_int {j : Json D} (hj : j.type ≠ .int) (s : Json D) :
    value? (typeFixup env s j) = (value? (typeFixup env s .undef)).map fun _ => j := by
  have hsingle : ∀ t : Json D, value? (do return fixNumber env (← t.asString) j) =
      (value? (do return fixNumber env (← t.asString) .undef)).map fun _ => j := by
    intro t
    have hfix := fixNumbers_of_ne_int env hj [t]
    cases ht : t.asString with
    | error e => simp [value?]
    | ok type => simpa [fixNumbers, ht] using hfix
  cases ht : s.member "type" with
  | none => simp [typeFixup, ht, value?]
  | some t =>
      cases t with
      | array a =>
          have hfix := fixNumbers_of_ne_int env hj (a.take (2 ^ 32))
          apply Option.ext
          intro i
          rw [value?_eq_some, typeFixup_array ht, ← value?_eq_some, hfix]
          simp only [Option.map_eq_some_iff, value?_eq_some, typeFixup_array ht]
          constructor
          · rintro ⟨⟨u, hu, hi⟩, hlength⟩
            exact ⟨u, ⟨hu, hlength⟩, hi⟩
          · rintro ⟨u, ⟨hu, hlength⟩, hi⟩
            exact ⟨⟨u, hu, hi⟩, hlength⟩
      | _ =>
          simp only [typeFixup, ht]
          exact hsingle _

end Fixup

/-- A relation between verdicts and strict results that the parts of a verdict respect. -/
structure Respects (env : Env D) (P : ∀ β : Type, Verdict β → Option β → Prop) : Prop where
  passed : ∀ {β : Type} (b : β), P β (.passed b) (some b)
  raised : ∀ β : Type, P β .raised none
  absent : ∀ (place : Place D) (m : String),
    P (Json D) (absent env place m >>= fun c => .passed c.schema) none
  check : ∀ {f : ErrorHandler → Except Failure Bool}, Asks f → ∀ place : Place D,
    P Unit (ofCheck (f (place.handler env))) (accepts (f onErrorThrow))
  bind : ∀ {β γ δ : Type} {v : Verdict β} {o : Option γ} (f : β → γ) {g : β → Verdict δ}
    {k : γ → Option δ}, P γ (v >>= fun b => .passed (f b)) o → (∀ b, P δ (g b) (k (f b))) →
    P δ (v >>= g) (o.bind k)

namespace Respects

variable {P : ∀ β : Type, Verdict β → Option β → Prop} (h : Respects env P)

include h

theorem andThen {β δ : Type} {v : Verdict β} {o : Option β} {g : β → Verdict δ}
    {k : β → Option δ} (hv : P β v o) (hg : ∀ b, P δ (g b) (k b)) :
    P δ (v >>= g) (o.bind k) := by
  refine h.bind id ?_ hg
  rw [← bind_passed v] at hv
  exact hv

theorem result {β : Type} (r : Except Failure β) : P β (ofResult r) (value? r) := by
  cases r with
  | error e => exact h.raised β
  | ok b => exact h.passed b

theorem option {β : Type} (o : Option β) : P β (ofOption o) o := by
  cases o with
  | none => exact h.raised β
  | some b => exact h.passed b

theorem enter (place : Place D) (sel : Sel) :
    P (Json D) (place.enter sel >>= fun c => .passed c.schema) (place.schema.child sel) := by
  rw [Place.enter]
  cases place.schema.child sel with
  | none => exact h.raised (Json D)
  | some c => exact h.passed c

theorem additional (place : Place D) (m : String) :
    P (Json D) (judgeAdditional env place m >>= fun c => .passed c.schema)
      (place.schema.selectAdditional.bind place.schema.child) := by
  have henter := h.enter place .additional
  rw [judgeAdditional, selectAdditional]
  cases hc : place.schema.child .additional with
  | none => exact h.absent place m
  | some c =>
      rw [hc] at henter
      simpa [hc] using henter

theorem key (place : Place D) (k : String) :
    P (Json D) (judgeKey env place k >>= fun c => .passed c.schema)
      (place.schema.childKey k) := by
  rw [judgeKey, childKey, selectKey]
  by_cases hk : (place.schema.property k).isSome
  · rw [if_pos hk, if_pos hk]
    exact h.enter place (.property k)
  · rw [if_neg hk, if_neg hk]
    split
    · exact h.additional place _
    · exact h.additional place _

theorem index (place : Place D) (i : ℕ) :
    P (Json D) (judgeIndex env place (toInt32 i) >>= fun c => .passed c.schema)
      (place.schema.childIndex i) := by
  rw [childIndex]
  generalize toInt32 i = idx
  rw [judgeIndex, selectIndex]
  cases place.schema.member "items" with
  | none => exact h.additional place _
  | some j =>
      simp only
      by_cases h0 : 0 ≤ j.length
      · simp only [h0, if_true]
        by_cases hle : j.length ≤ idx
        · simp only [hle, if_true]
          exact h.additional place _
        · simp only [hle, if_false]
          by_cases hneg : idx < 0
          · simp only [hneg, if_true]
            exact h.raised (Json D)
          · simp only [hneg, if_false]
            exact h.enter place (.item idx.toNat)
      · simp only [h0, if_false]
        exact h.enter place .items

theorem typed (place : Place D) (kind : Kind) :
    P Unit (judgeType env place kind)
      (accepts (validType onErrorThrow place.schema kind)) :=
  h.check (asks_validType place.schema kind) place

theorem head (place : Place D) (j : Json D) :
    P (Json D) (judgeHead env place j)
      ((accepts (validType onErrorThrow place.schema j.type)).bind fun _ =>
        value? (typeFixup env place.schema j)) :=
  h.andThen (h.typed place j.type) fun _ => h.result _

/-- The type of a container, which `Json::validate` reads twice. -/
theorem container (place : Place D) {j : Json D} (hj : j.type ≠ .int) :
    P Unit (judgeHead env place j >>= fun _ => .passed ())
      ((whole env).container place.schema j.type) := by
  have hhead := h.andThen (h.head place j) fun _ => h.passed ()
  rw [Option.bind_assoc, typeFixup_of_ne_int hj] at hhead
  have hcontainer : (whole env).container place.schema j.type =
      (accepts (validType onErrorThrow place.schema j.type)).bind fun _ =>
        ((value? (typeFixup env place.schema .undef)).map fun _ => j).bind fun _ => some () := by
    simp [whole, Option.bind_map]
  rw [hcontainer]
  exact hhead

theorem scalar (place : Place D) (j : Json D) :
    P (Json D) (judgeScalar env place j)
      ((accepts (validType onErrorThrow place.schema j.type)).bind fun _ =>
        (value? (typeFixup env place.schema j)).bind fun j' =>
          (accepts (validValue env onErrorThrow place.schema j')).bind fun _ => some j') := by
  rw [← Option.bind_assoc]
  apply h.andThen (h.head place j)
  intro j'
  exact h.andThen (h.check (asks_validValue env place.schema j') place) fun _ => h.passed j'

theorem minSize (place : Place D) (size : ℕ) :
    P Unit (judgeMinSize env place size) (place.schema.minSize size) := by
  rw [judgeMinSize, Json.minSize]
  apply h.andThen (h.check (asks_validMinItems place.schema size) place)
  intro _
  cases place.schema.member "items" with
  | none => exact h.passed ()
  | some j =>
      cases j with
      | array items =>
          simp only
          split
          · exact h.passed ()
          · exact h.check (.ask _) place
      | _ => exact h.passed ()

theorem maxSize (place : Place D) (size : ℕ) :
    P Unit (judgeMaxSize env place size) (place.schema.maxSize size) :=
  h.check (asks_validMaxSize place.schema size) place

theorem rest (place : Place D) (members : List (String × Json D)) :
    P (Json D) (judgeRest env place members) (complete env place.schema members) := by
  rw [judgeRest, complete]
  apply h.andThen (h.result _)
  intro names
  apply h.andThen (h.option _)
  intro added
  exact h.andThen (h.check (asks_validRequires place.schema _) place) fun _ => h.passed _

end Respects

section Values

variable {P : ∀ β : Type, Verdict β → Option β → Prop}

mutual

/-- The verdict on a value and what `conform` makes of it. -/
theorem judge_respects (h : Respects env P) : ∀ (j : Json D) (place : Place D),
    P (Json D) (judge env place j) (conform env (whole env) place.schema j)
  | .undef, place => by
      simp only [judge, conform]
      exact h.head place .undef
  | .bool b, place => by
      simp only [judge, conform]
      exact h.scalar place (.bool b)
  | .int n, place => by
      simp only [judge, conform]
      exact h.scalar place (.int n)
  | .double x, place => by
      simp only [judge, conform]
      exact h.scalar place (.double x)
  | .string v, place => by
      simp only [judge, conform]
      exact h.scalar place (.string v)
  | .object o, place => by
      simp only [judge, conform]
      apply h.bind (fun _ => ()) (h.container place (j := .object o) (by simp [type]))
      intro _
      exact h.andThen (judgeMembers_respects h o place) fun o' => h.rest place o'
  | .array a, place => by
      simp only [judge, conform]
      apply h.bind (fun _ => ()) (h.container place (j := .array a) (by simp [type]))
      intro _
      apply h.andThen (h.minSize place a.length)
      intro _
      apply h.andThen (h.maxSize place a.length)
      intro _
      exact h.andThen (judgeElements_respects h a (toUInt32 a.length) 0 place)
        fun a' => h.passed _

theorem judgeMembers_respects (h : Respects env P) :
    ∀ (o : List (String × Json D)) (place : Place D),
    P (List (String × Json D)) (judgeMembers env place o)
      (conformMembers env (whole env) place.schema o)
  | [], place => by
      simp only [judgeMembers, conformMembers]
      exact h.passed _
  | (k, j) :: rest, place => by
      simp only [judgeMembers, conformMembers]
      apply h.bind Place.schema (h.key place k)
      intro child
      apply h.andThen (judge_respects h j child)
      intro j'
      exact h.andThen (judgeMembers_respects h rest place) fun rest' => h.passed _

theorem judgeElements_respects (h : Respects env P) :
    ∀ (a : List (Json D)) (size i : ℕ) (place : Place D),
    P (List (Json D)) (judgeElements env place size i a)
      (conformElements env (whole env) place.schema size i a)
  | [], size, i, place => by
      simp only [judgeElements, conformElements]
      exact h.passed _
  | j :: rest, size, i, place => by
      simp only [judgeElements, conformElements]
      by_cases hi : i < size
      · simp only [hi, if_true]
        apply h.bind Place.schema (h.index place i)
        intro child
        apply h.andThen (judge_respects h j child)
        intro j'
        exact h.andThen (judgeElements_respects h rest size (i + 1) place)
          fun rest' => h.passed _
      · simp only [hi, if_false]
        exact h.passed _

end

end Values

section Documents

variable {P : ∀ β : Type, Verdict β → Option β → Prop}

namespace Respects

variable (h : Respects env P)

include h

theorem demand (place : Option (Place D)) {check : Place D → Verdict Unit}
    {f : Json D → Option Unit} (hcheck : ∀ place, P Unit (check place) (f place.schema)) :
    P Unit (demand place check) (require (place.map Place.schema) f) := by
  cases place with
  | none => exact h.passed ()
  | some place => exact hcheck place

theorem pursue (place : Option (Place D)) {select : Place D → Verdict (Place D)}
    {f : Json D → Option (Json D)}
    (hselect : ∀ place, P (Json D) (select place >>= fun c => .passed c.schema)
      (f place.schema)) :
    P (Option (Json D)) (pursue place select >>= fun c => .passed (c.map Place.schema))
      (descend (place.map Place.schema) f) := by
  cases place with
  | none => exact h.passed none
  | some place =>
      simp only [Json.pursue, descend, andThen_assoc, Option.map_eq_bind]
      exact h.bind Place.schema (hselect place) fun c => h.passed _

theorem value (place : Place D) (j : Json D) :
    P Unit (judgeValue env place j)
      (accepts (both (validType onErrorThrow place.schema j.type)
        (validValue env onErrorThrow place.schema j))) :=
  h.check (.both (asks_validType place.schema j.type) (asks_validValue env place.schema j))
    place

/-- A boolean or a string. -/
theorem received (place : Option (Place D)) {j : Json D}
    (hj : ∀ s, streamScalar env s j =
      (accepts (both (validType onErrorThrow s j.type)
        (validValue env onErrorThrow s j))).bind fun _ => some j) :
    P (Json D) (receiveValue env place j) (readScalar env (place.map Place.schema) j) := by
  cases place with
  | none => exact h.passed j
  | some place =>
      rw [Option.map_some, readScalar, hj]
      exact h.andThen (h.value place j) fun _ => h.passed j

theorem number (place : Option (Place D)) {lexeme : String} {j : Json D}
    (hvalue : lexNumber env lexeme = .ok j) :
    P (Json D) (receiveNumber env place j) (readScalar env (place.map Place.schema) j) := by
  cases place with
  | none => exact h.passed j
  | some place =>
      have hj : streamScalar env place.schema j =
          (accepts (both (validType onErrorThrow place.schema j.type)
            (validValue env onErrorThrow place.schema j))).bind
              fun _ => value? (typeFixup env place.schema j) := by
        rcases lexNumber_scalar env hvalue with ⟨n, rfl⟩ | ⟨x, rfl⟩
        · rfl
        · rfl
      rw [Option.map_some, readScalar, hj]
      exact h.andThen (h.value place j) fun _ => h.result _

theorem object (place : Option (Place D)) (members : List (String × Json D)) :
    P (Json D) (receiveObject env place members)
      (readObject env (place.map Place.schema) members) := by
  cases place with
  | none => exact h.passed _
  | some place => exact h.rest place members

end Respects

mutual

/-- The verdict on a document and what `read` makes of it. -/
theorem receive_respects (h : Respects env P) : ∀ (d : Doc) (place : Option (Place D)),
    P (Json D) (receive env place d) (read env (place.map Place.schema) d)
  | .null, place => by
      simp only [receive, read]
      cases place with
      | none => exact h.passed _
      | some place => exact h.andThen (h.typed place .undef) fun _ => h.passed _
  | .boolean b, place => by
      simp only [receive, read]
      exact h.received place fun s => rfl
  | .number lexeme, place => by
      simp only [receive, read]
      cases hvalue : lexNumber env lexeme with
      | error e => exact h.raised (Json D)
      | ok j => exact h.number place hvalue
  | .string v, place => by
      simp only [receive, read]
      exact h.received place fun s => rfl
  | .map members, place => by
      simp only [receive, read]
      apply h.andThen (h.demand place fun place => h.typed place .object)
      intro _
      exact h.andThen (receiveMembers_respects h members place []) fun o => h.object place o
  | .array elements, place => by
      simp only [receive, read]
      apply h.andThen (h.demand place fun place => h.typed place .array)
      intro _
      apply h.andThen (receiveElements_respects h elements place [])
      intro a
      exact h.andThen (h.demand place fun place => h.minSize place a.length)
        fun _ => h.passed _

theorem receiveMembers_respects (h : Respects env P) : ∀ (members : List (String × Doc))
    (place : Option (Place D)) (o : List (String × Json D)),
    P (List (String × Json D)) (receiveMembers env place o members)
      (readMembers env (place.map Place.schema) o members)
  | [], place, o => by
      simp only [receiveMembers, readMembers]
      exact h.passed _
  | (k, d) :: rest, place, o => by
      simp only [receiveMembers, readMembers]
      apply h.bind (Option.map Place.schema) (h.pursue place fun place => h.key place k)
      intro child
      by_cases hk : (o.lookup k).isSome
      · rw [if_pos hk, if_pos hk]
        exact h.raised _
      · rw [if_neg hk, if_neg hk]
        exact h.andThen (receive_respects h d child)
          fun j => receiveMembers_respects h rest place _

theorem receiveElements_respects (h : Respects env P) : ∀ (elements : List Doc)
    (place : Option (Place D)) (a : List (Json D)),
    P (List (Json D)) (receiveElements env place a elements)
      (readElements env (place.map Place.schema) a elements)
  | [], place, a => by
      simp only [receiveElements, readElements]
      exact h.passed _
  | d :: rest, place, a => by
      simp only [receiveElements, readElements]
      apply h.andThen (h.demand place fun place => h.maxSize place (a.length + 1))
      intro _
      apply h.bind (Option.map Place.schema)
        (h.pursue place fun place => h.index place a.length)
      intro child
      exact h.andThen (receive_respects h d child)
        fun j => receiveElements_respects h rest place _

end

end Documents

section Relations

/-- The handlers of new nodes only throw. -/
theorem respects_throwing (henv : ∀ p, env.errHandler p = onErrorThrow) :
    Respects env fun _ v o => v = ofOption o where
  passed := fun _ => rfl
  raised := fun _ => rfl
  absent := fun place m => by
    simp only [absent, Place.handler, henv, onErrorThrow]
    rfl
  check := fun hf place => by
    rw [Place.handler, henv, ofOption_accepts (hf.throws throws_handler)]
  bind := fun {β γ δ v o} f {g k} hv hg => by
    cases v with
    | passed b =>
        cases o with
        | none => cases hv
        | some c =>
            cases hv
            exact hg b
    | raised =>
        cases o with
        | none => rfl
        | some c => cases hv
    | _ => cases o <;> cases hv

/-- A handler that returns `true` lets the work go on. -/
theorem respects_answers (hanswers : ∀ p m, env.errHandler p m ≠ .ok false) :
    Respects env fun _ v _ => v ≠ failed where
  passed := fun b h => by cases h
  raised := fun e h => by cases h
  absent := fun place m => by
    rw [absent]
    split
    · intro h
      cases h
    · intro h
      cases h
  check := fun hf place => ofCheck_ne_failed (hf.throws (hanswers (paths place.sels)))
  bind := fun {β γ δ v o} f {g k} hv hg => by
    apply bind_ne_failed _ hg
    rintro rfl
    exact hv rfl

/-- A handler that returns `false` ends it. -/
theorem respects_refusals (hrefusals : ∀ p m, env.errHandler p m ≠ .ok true) :
    Respects env fun _ v o => Within v o where
  passed := within_passed
  raised := fun _ => within_raised none
  absent := fun place m => by
    rw [absent]
    split
    · intro _ h
      cases h
    · intro _ h
      cases h
  check := fun {f} hf place => by
    rintro ⟨⟩ h
    rw [ofCheck_eq_passed] at h
    rw [accepts_eq_some]
    exact hf.of_passes (hrefusals (paths place.sels)) h onErrorThrow
  bind := fun {β γ δ v o} f {g k} hv hg => by
    refine Within.bind_map (f := f) ?_ hg
    rintro b rfl
    exact hv (f b) rfl

end Relations

end Json

end Gearbox
