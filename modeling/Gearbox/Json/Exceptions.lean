import Gearbox.Json.Documents

/-!
# What a parse throws

A parse without a schema ends with a value or with an exception. It does not fail an
`assert`, and it does not follow a pointer that points nowhere. This holds for every text,
because it holds for every number of events of a document.
-/

namespace Gearbox

namespace Json

open Refinement Refinement.Verdict

variable {D : Type} {env : Env D} {c c' : Context D} {p : Path}

/-- A `catch` of `std::exception` catches it. -/
def Failure.isException : Failure → Bool
  | .json _ => true
  | .std _ => true
  | .assertion => false
  | .undefined => false
  | .diverges => false

/-- The callbacks for any number of the events fail with exceptions only. -/
def Raises (env : Env D) (es : List Event) (c : Context D) : Prop :=
  ∀ n x, (outcome (feed env (es.take n)) c).1 = .error x → x.isException

theorem Raises.nil : Raises env [] c := by
  intro n x h
  rw [List.take_nil] at h
  cases h

theorem Raises.cons {e : Event} {es : List Event}
    (h : ∀ x, (outcome (callback env e) c).1 = .error x → x.isException)
    (hrest : ∀ c', outcome (callback env e) c = (.ok true, c') → Raises env es c') :
    Raises env (e :: es) c := by
  rintro (_ | n) x hx
  · cases hx
  · rw [List.take_succ_cons, feed] at hx
    cases hr : outcome (callback env e) c with
    | mk r c₁ =>
        cases r with
        | error y =>
            rw [outcome_bind_error hr] at hx
            cases hx
            exact h _ (congrArg Prod.fst hr)
        | ok b =>
            rw [outcome_bind_ok hr] at hx
            cases b with
            | true => exact hrest c₁ hr n x hx
            | false =>
                cases hx
                rfl

theorem Raises.append {es es' : List Event} (h : Raises env es c)
    (hrest : ∀ c', outcome (feed env es) c = (.ok (), c') → Raises env es' c') :
    Raises env (es ++ es') c := by
  intro n x hx
  by_cases hn : n ≤ es.length
  · rw [List.take_append_of_le_length hn] at hx
    exact h n x hx
  · have htake : (es ++ es').take n = es ++ es'.take (n - es.length) := by
      rw [List.take_append, List.take_of_length_le (by omega)]
    rw [htake, outcome_feed_append] at hx
    cases hr : outcome (feed env es) c with
    | mk r c₁ =>
        cases r with
        | error y =>
            rw [outcome_bind_error hr] at hx
            apply h es.length x
            rw [List.take_length, hr]
            exact hx
        | ok u =>
            rw [outcome_bind_ok hr] at hx
            exact hrest c₁ hr _ x hx

/-- An event for which the callback cannot fail. -/
theorem Raises.cons_of_ends {β : Type} {b : β} {e : Event} {es : List Event}
    {Q : β → Context D → Prop}
    (h : Ends (.ok false) (.ok false) (outcome (callback env e) c) (passed b) (Kept env c)
      fun r b c' => r = true ∧ Q b c')
    (hrest : ∀ c', Q b c' → Raises env es c') : Raises env (e :: es) c := by
  apply Raises.cons
  · intro x hx
    exact absurd hx (h.ne_error x)
  · intro c' hc'
    obtain ⟨b', hb', -, -, hq⟩ := h.of_ok hc' (by simp) (by simp)
    cases hb'
    exact hrest c' hq

section Callbacks

theorem isException_lexNumber {lexeme : String} {x : Failure}
    (h : lexNumber env lexeme = .error x) : x.isException := by
  rw [lexNumber] at h
  split at h
  · split at h
    · cases h
    · cases h
      rfl
  · split at h
    · cases h
    · cases h
      rfl

theorem isException_parseNumber (hslot : Slot c p) (hschema : c.schema = none)
    (lexeme : String) {x : Failure}
    (h : (outcome (parseNumber env lexeme) c).1 = .error x) : x.isException := by
  cases hvalue : lexNumber env lexeme with
  | error y =>
      rw [parseNumber, outcome_bind_ok (hslot.getObj env)] at h
      simp only [hvalue] at h
      rw [outcome_bind_error (outcome_lift _ c)] at h
      cases h
      exact isException_lexNumber hvalue
  | ok value =>
      have hs : Points env .undef c none := hschema
      have hends := ends_parseNumber hslot hs lexeme
      rw [receive, hvalue] at hends
      exact absurd h (Ends.ne_error (b := value) hends x)

theorem outcome_parseMapKey {o : List (String × Json D)} (hcursor : c.cursor = some p)
    (hnode : c.json.root.node p = some (.object o)) (hschema : c.schema = none)
    (k : String) : outcome (parseMapKey env k) c = outcome (newKey p k) c := by
  have hassert : outcome (assertType p .object) c = (.ok (), c) :=
    outcome_assertType hnode rfl
  rw [parseMapKey, outcome_bind_ok (outcome_getJson hcursor), outcome_bind_ok hassert,
    outcome_bind_ok (outcome_get c)]
  simp only [hschema]

theorem isException_parseMapKey {o : List (String × Json D)} (hcursor : c.cursor = some p)
    (hnode : c.json.root.node p = some (.object o)) (hschema : c.schema = none)
    (k : String) {x : Failure} (h : (outcome (parseMapKey env k) c).1 = .error x) :
    x.isException := by
  rw [outcome_parseMapKey hcursor hnode hschema, newKey,
    outcome_bind_ok (outcome_loadJson hnode)] at h
  split at h
  · cases h
    rfl
  · rw [outcome_bind_ok (outcome_updateJson _ c), outcome_bind_ok (outcome_setJson _ _)] at h
    cases h

end Callbacks

/-- The events of a document where the place for its value has to be made. -/
theorem raises_place {d : Doc} (h : outcome (getObj env) c = (.ok (some p), c'))
    (hslot : Slot c' p) (hd : Raises env d.events c') : Raises env d.events c := by
  obtain ⟨e, es, f, hevents, hcallback, -⟩ := exists_first env d
  intro n x hx
  rw [Raises, hevents] at hd
  rw [hevents] at hx
  cases n with
  | zero => cases hx
  | succ n =>
      apply hd (n + 1) x
      rw [List.take_succ_cons, feed, hcallback, bind_assoc] at hx ⊢
      rw [outcome_bind_ok h] at hx
      rw [outcome_bind_ok (hslot.getObj env)]
      exact hx

mutual

theorem raises_events : ∀ (d : Doc) {c : Context D} {p : Path}, Slot c p →
    c.schema = none → Raises env d.events c
  | .null, c, p, h, hschema => by
      have hs : Points env .undef c none := hschema
      exact Raises.cons_of_ends (e := .null) (ends_parseNull h hs)
        fun _ _ => Raises.nil
  | .boolean b, c, p, h, hschema => by
      have hs : Points env .undef c none := hschema
      exact Raises.cons_of_ends (e := .boolean b)
        (ends_parseValue h hs (.bool b)) fun _ _ => Raises.nil
  | .number lexeme, c, p, h, hschema =>
      Raises.cons (fun _ => isException_parseNumber h hschema lexeme)
        fun _ _ => Raises.nil
  | .string v, c, p, h, hschema => by
      have hs : Points env .undef c none := hschema
      exact Raises.cons_of_ends (e := .string v)
        (ends_parseValue h hs (.string v)) fun _ _ => Raises.nil
  | .map members, c, p, h, hschema => by
      have hs : Points env .undef c none := hschema
      apply Raises.cons_of_ends (e := .startMap) (ends_parseStart h hs (.object []))
      intro c₁ hinside₁
      have hs₁ : c₁.schema = none := hinside₁.schema.trans hschema
      have hnode₁ := hinside₁.node h.node
      apply Raises.append (raises_members members hinside₁.cursor hnode₁ hs₁)
      intro c₂ hc₂
      have hmembers := feeds_members (setOnSchemas_undef env) members hinside₁.cursor hnode₁
        (show Points env .undef c₁ none from hs₁)
      obtain ⟨o, -, -, hinside₂⟩ := hmembers.of_ok hc₂
      have hs₂ : Points env .undef c₂ none := hinside₂.schema.trans hs₁
      exact Raises.cons_of_ends (e := .endMap)
        (ends_parseEndMap hinside₂.cursor (hinside₂.node hnode₁) hs₂)
        fun _ _ => Raises.nil
  | .array elements, c, p, h, hschema => by
      have hs : Points env .undef c none := hschema
      apply Raises.cons_of_ends (e := .startArray)
        (ends_parseStart h hs (.array []))
      intro c₁ hinside₁
      have hs₁ : c₁.schema = none := hinside₁.schema.trans hschema
      have hnode₁ := hinside₁.node h.node
      apply Raises.append (raises_elements elements hinside₁.cursor hnode₁ hs₁)
      intro c₂ hc₂
      have helements := feeds_elements (setOnSchemas_undef env) elements hinside₁.cursor hnode₁
        (show Points env .undef c₁ none from hs₁)
      obtain ⟨a, -, -, hinside₂⟩ := helements.of_ok hc₂
      have hs₂ : Points env .undef c₂ none := hinside₂.schema.trans hs₁
      exact Raises.cons_of_ends (e := .endArray)
        (ends_parseEndArray (setOnSchemas_undef env) hinside₂.cursor (hinside₂.node hnode₁) hs₂)
        fun _ _ => Raises.nil

theorem raises_members : ∀ (members : List (String × Doc)) {c : Context D} {p : Path}
    {o : List (String × Json D)}, c.cursor = some p →
    c.json.root.node p = some (.object o) → c.schema = none →
    Raises env (Doc.memberEvents members) c
  | [], _, _, _, _, _, _ => Raises.nil
  | (k, d) :: rest, c, p, o, hcursor, hnode, hschema => by
      have hs : Points env .undef c none := hschema
      apply Raises.cons (e := .mapKey k)
        (fun _ => isException_parseMapKey hcursor hnode hschema k)
      intro c₁ hc₁
      obtain ⟨s', hs', hkept₁, -, hopened⟩ :=
        (ends_parseMapKey (setOnSchemas_undef env) hcursor hnode hs k).of_ok hc₁ (by simp)
          (by simp)
      have hk : o.lookup k = none := by
        cases hk : o.lookup k with
        | none => rfl
        | some v => simp [pursue, hk] at hs'
      have hnone : s' = none := by simpa [pursue, hk] using hs'.symm
      subst hnone
      have hs₁ : c₁.schema = none := hopened.descends.2
      apply Raises.append (raises_events d hopened.slot hs₁)
      intro c₂ hc₂
      have hevents := feeds_events (setOnSchemas_undef env) d hopened.slot hopened.descends.points
      obtain ⟨j, -, hkept₂, hdone⟩ := hevents.of_ok hc₂
      have hinside := hopened.inside hdone hkept₂
      rw [modifyStep_insertKey hk] at hinside
      exact raises_members rest hinside.cursor (hinside.node hnode)
        (hinside.schema.trans hschema)

theorem raises_elements : ∀ (elements : List Doc) {c : Context D} {p : Path}
    {a : List (Json D)}, c.cursor = some p →
    c.json.root.node p = some (.array a) → c.schema = none →
    Raises env (Doc.elementEvents elements) c
  | [], _, _, _, _, _, _ => Raises.nil
  | d :: rest, c, p, a, hcursor, hnode, hschema => by
      have hs : Points env .undef c none := hschema
      rw [Doc.elementEvents]
      apply Raises.append
      · obtain ⟨-, r, hr, rfl, hopened⟩ := ends_getObj (setOnSchemas_undef env) hcursor hnode hs
        exact raises_place (Prod.ext hr rfl) hopened.slot
          (raises_events d hopened.slot hopened.descends.2)
      · intro c₁ hc₁
        have hone : Feeds env (Doc.elementEvents [d]) c (receiveElements env none a [d])
            (fun a' c' => Inside c p (.array a') c') :=
          feeds_elements (setOnSchemas_undef env) [d] hcursor hnode hs
        have hc₁' : outcome (feed env (Doc.elementEvents [d])) c = (.ok (), c₁) := by
          rw [Doc.elementEvents, Doc.elementEvents, List.append_nil]
          exact hc₁
        obtain ⟨a', -, -, hinside⟩ := hone.of_ok hc₁'
        exact raises_elements rest hinside.cursor (hinside.node hnode)
          (hinside.schema.trans hschema)

end

/-- A parse without a schema throws exceptions only. -/
theorem isException_parse {text : Text} {x : Failure}
    (h : (parse env text none).1 = .error x) : x.isException := by
  have hstart : (Context.start (none : Option (Tree D))).schema = none := rfl
  cases text with
  | document d =>
      have hraises : Raises env d.events _ :=
        raises_events d (slot_start (none : Option (Tree D))) hstart
      apply hraises d.events.length x
      rw [List.take_length]
      exact h
  | broken d n =>
      have hraises : Raises env d.events _ :=
        raises_events d (slot_start (none : Option (Tree D))) hstart
      rw [parse, parseText] at h
      cases hr : outcome (feed env (d.events.take n)) (Context.start none) with
      | mk r c =>
          cases r with
          | error y =>
              rw [outcome_bind_error hr] at h
              cases h
              exact hraises n _ (congrArg Prod.fst hr)
          | ok u =>
              rw [outcome_bind_ok hr, outcome_throw] at h
              cases h
              rfl

end Json

end Gearbox
