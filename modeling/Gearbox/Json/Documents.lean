import Gearbox.Json.Parsed

/-!
# Whole documents

The callbacks for the events of a document answer what `receive` answers, and where a check
fails or a child has no schema the parse throws a parse error. With the error handlers of a
schema that was just parsed they make of a document what `read` makes of it. At every event
the schema in use extends the one that the parse started with, so that this holds also for a
text that `yajl` reads only in part.
-/

namespace Gearbox

namespace Json

open Refinement Refinement.Verdict

variable {D : Type} {env : Env D} {T : Json D} {c c₁ c' : Context D} {p : Path}

section Feed

variable {β δ : Type} {v : Verdict β} {Q : β → Context D → Prop}

theorem outcome_feed_append (es es' : List Event) (c : Context D) :
    outcome (feed env (es ++ es')) c =
      outcome (feed env es >>= fun _ => feed env es') c := by
  induction es generalizing c with
  | nil => rfl
  | cons e es ih =>
      rw [List.cons_append, feed, feed, bind_assoc]
      cases hr : outcome (callback env e) c with
      | mk r c₁ =>
          cases r with
          | error x => rw [outcome_bind_error hr, outcome_bind_error hr]
          | ok b =>
              rw [outcome_bind_ok hr, outcome_bind_ok hr]
              cases b with
              | true => exact ih c₁
              | false => rfl

/-- The error of a parse that `yajl` stops because a callback has returned 0. -/
def parseError : Except Failure Unit :=
  .error (.json "parse error")

/-- The callbacks for the events end as `v` says, and the schema is kept at every event. -/
structure Feeds (env : Env D) (es : List Event) (c : Context D) (v : Verdict β)
    (Q : β → Context D → Prop) : Prop where
  ends : Ends parseError parseError (outcome (feed env es) c) v (Kept env c)
    fun _ b c' => Q b c'
  kept : ∀ n, Kept env c (outcome (feed env (es.take n)) c).2

/-- What is known when no callback has stopped the parse. -/
theorem Feeds.of_ok {es : List Event} (h : Feeds env es c v Q) {u : Unit}
    (hr : outcome (feed env es) c = (.ok u, c')) :
    ∃ b, v = passed b ∧ Kept env c c' ∧ Q b c' :=
  h.ends.of_ok hr (by simp [parseError]) (by simp [parseError])

theorem Feeds.nil {b : β} (h : Q b c) : Feeds env [] c (passed b) Q where
  ends := ends_pure (Kept.refl env c) h
  kept := fun n => by
    rw [List.take_nil]
    exact Kept.refl env c

theorem Feeds.cons {e : Event} {es : List Event} {g : β → Verdict δ}
    {R : δ → Context D → Prop}
    (h : Ends (.ok false) (.ok false) (outcome (callback env e) c) v (Kept env c)
      fun r b c' => r = true ∧ Q b c')
    (hrest : ∀ b c', v = passed b → Kept env c c' → Q b c' → Feeds env es c' (g b) R) :
    Feeds env (e :: es) c (v >>= g) R where
  ends := by
    rw [feed]
    apply Ends.bind h (fun _ _ => rfl) fun _ _ => rfl
    rintro r b c' hv hkept ⟨rfl, hq⟩
    exact kept_after (hrest b c' hv hkept hq).ends hkept
  kept := by
    rintro (_ | n)
    · exact Kept.refl env c
    · rw [List.take_succ_cons, feed]
      cases hc' : outcome (callback env e) c with
      | mk r c' =>
          rw [hc'] at h
          have hkept : Kept env c c' := h.1
          cases r with
          | error x =>
              rw [outcome_bind_error hc']
              exact hkept
          | ok b =>
              rw [outcome_bind_ok hc']
              cases b with
              | false => exact hkept
              | true =>
                  obtain ⟨b, hv, -, -, hq⟩ := h.of_ok rfl (by simp) (by simp)
                  exact hkept.trans ((hrest b c' hv hkept hq).kept n)

/-- The last event. -/
theorem Feeds.one {e : Event}
    (h : Ends (.ok false) (.ok false) (outcome (callback env e) c) v (Kept env c)
      fun r b c' => r = true ∧ Q b c') : Feeds env [e] c v Q := by
  rw [← bind_passed v]
  exact Feeds.cons h fun b c' _ _ hq => Feeds.nil hq

theorem Feeds.append {es es' : List Event} {g : β → Verdict δ}
    {R : δ → Context D → Prop} (h : Feeds env es c v Q)
    (hrest : ∀ b c', Kept env c c' → Q b c' → Feeds env es' c' (g b) R) :
    Feeds env (es ++ es') c (v >>= g) R where
  ends := by
    rw [outcome_feed_append]
    apply Ends.bind h.ends (fun _ _ => rfl) fun _ _ => rfl
    intro r b c' _ hkept hq
    exact kept_after (hrest b c' hkept hq).ends hkept
  kept := by
    intro n
    by_cases hn : n ≤ es.length
    · rw [List.take_append_of_le_length hn]
      exact h.kept n
    · have htake : (es ++ es').take n = es ++ es'.take (n - es.length) := by
        rw [List.take_append, List.take_of_length_le (by omega)]
      have hkept := h.ends.1
      rw [htake, outcome_feed_append]
      cases hc' : outcome (feed env es) c with
      | mk r c' =>
          rw [hc'] at hkept
          cases r with
          | error x =>
              rw [outcome_bind_error hc']
              exact hkept
          | ok u =>
              obtain ⟨b, -, -, hq⟩ := h.of_ok hc'
              rw [outcome_bind_ok hc']
              exact hkept.trans ((hrest b c' hkept hq).kept _)

theorem Feeds.mono {es : List Event} {Q' : β → Context D → Prop} (h : Feeds env es c v Q)
    (hQ : ∀ b c', Kept env c c' → Q b c' → Q' b c') : Feeds env es c v Q' where
  ends := h.ends.mono (fun _ hkept => hkept) fun _ b c' _ hkept hq => hQ b c' hkept hq
  kept := h.kept

end Feed

section Events

/-- The first callback for a document looks for the place for the value, and returns 0 if
there is none. -/
theorem exists_first (env : Env D) (d : Doc) :
    ∃ e es f, d.events = e :: es ∧ callback env e = getObj env >>= f ∧
      f none = pure false := by
  cases d with
  | null => exact ⟨_, _, _, rfl, rfl, rfl⟩
  | boolean b => exact ⟨_, _, _, rfl, rfl, rfl⟩
  | number lexeme => exact ⟨_, _, _, rfl, rfl, rfl⟩
  | string v => exact ⟨_, _, _, rfl, rfl, rfl⟩
  | map members => exact ⟨_, _, _, rfl, rfl, rfl⟩
  | array elements => exact ⟨_, _, _, rfl, rfl, rfl⟩

/-- The events of a document where the place for its value has to be made. -/
theorem feeds_place {β δ : Type} {v : Verdict β} {g : β → Verdict δ} {d : Doc} {p : Path}
    {Q : β → Context D → Prop} {R : δ → Context D → Prop}
    (h : Ends (.ok none) (.ok none) (outcome (getObj env) c) v (Kept env c)
      fun r b c' => r = some p ∧ Q b c')
    (hrest : ∀ b c', Kept env c c' → Q b c' →
      Slot c' p ∧ Feeds env d.events c' (g b) R) :
    Feeds env d.events c (v >>= g) R := by
  obtain ⟨e, es, f, hevents, hcallback, hnone⟩ := exists_first env d
  have hfeed : ∀ es', feed env (e :: es') = getObj env >>= fun r =>
      f r >>= fun b => if b then feed env es' else throw (.json "parse error") := by
    intro es'
    rw [feed, hcallback, bind_assoc]
  have hstop : ∀ (c' : Context D) es', outcome (f none >>= fun b =>
      if b then feed env es' else throw (.json "parse error")) c' = (parseError, c') := by
    intro c' es'
    rw [hnone]
    rfl
  have hplace : ∀ (c' : Context D) es', Slot c' p →
      outcome (feed env (e :: es')) c' = outcome (f (some p) >>= fun b =>
        if b then feed env es' else throw (.json "parse error")) c' := by
    intro c' es' hslot
    rw [hfeed, outcome_bind_ok (hslot.getObj env)]
  constructor
  · rw [hevents, hfeed]
    apply Ends.bind h (fun _ c' => hstop c' es) fun _ c' => hstop c' es
    rintro r b c' - hkept ⟨rfl, hq⟩
    obtain ⟨hslot, hfeeds⟩ := hrest b c' hkept hq
    have hends := hfeeds.ends
    rw [hevents, hplace c' es hslot] at hends
    exact kept_after hends hkept
  · rintro (_ | n)
    · exact Kept.refl env c
    · rw [hevents, List.take_succ_cons, hfeed]
      cases hc' : outcome (getObj env) c with
      | mk r c' =>
          rw [hc'] at h
          have hkept : Kept env c c' := h.1
          cases r with
          | error x =>
              rw [outcome_bind_error hc']
              exact hkept
          | ok r =>
              rw [outcome_bind_ok hc']
              cases r with
              | none =>
                  rw [hstop]
                  exact hkept
              | some q =>
                  obtain ⟨b, -, -, hq, hQ⟩ := h.of_ok rfl (by simp) (by simp)
                  cases hq
                  obtain ⟨hslot, hfeeds⟩ := hrest b c' hkept hQ
                  have hkept' := hfeeds.kept (n + 1)
                  rw [hevents, List.take_succ_cons, hplace c' _ hslot] at hkept'
                  exact hkept.trans hkept'

theorem Inside.refl {j : Json D} (hcursor : c.cursor = some p)
    (hnode : c.json.root.node p = some j) : Inside c p j c where
  root := (modify_self hnode).symm
  parent := fun _ _ => rfl
  cursor := hcursor
  schema := rfl

theorem modifyStep_insertKey {o : List (String × Json D)} {k : String}
    (hk : o.lookup k = none) (v : Json D) :
    modifyStep (.key k) (fun _ => v) (.object (Assoc.insertKey k .undef o)) =
      .object (Assoc.insertKey k v o) := by
  rw [modifyStep, Assoc.modifyKey_insertKey hk]

theorem modifyStep_snoc (a : List (Json D)) (v : Json D) :
    modifyStep (.index a.length) (fun _ => v) (.array (a ++ [.undef])) =
      .array (a ++ [v]) := by
  have hmodify : (a ++ [(undef : Json D)]).modify a.length (fun _ => v) =
      a ++ [v] := by
    rw [List.modify_eq_take_cons_drop (by simp)]
    simp
  rw [modifyStep, hmodify]

mutual

theorem feeds_events (hset : SetOnSchemas env T) :
    ∀ (d : Doc) {c : Context D} {p : Path} {place : Option (Place D)}, Slot c p →
    Points env T c place → Feeds env d.events c (receive env place d) (Done c p)
  | .null, c, p, place, h, hs => by
      rw [Doc.events]
      exact Feeds.one (e := .null) (ends_parseNull h hs)
  | .boolean b, c, p, place, h, hs => by
      simp only [Doc.events, receive]
      exact Feeds.one (e := .boolean b) (ends_parseValue h hs (.bool b))
  | .number lexeme, c, p, place, h, hs => by
      rw [Doc.events]
      exact Feeds.one (e := .number lexeme) (ends_parseNumber h hs lexeme)
  | .string v, c, p, place, h, hs => by
      simp only [Doc.events, receive]
      exact Feeds.one (e := .string v) (ends_parseValue h hs (.string v))
  | .map members, c, p, place, h, hs => by
      simp only [Doc.events, receive]
      apply Feeds.cons (e := .startMap) (ends_parseStart h hs (.object []))
      intro _ c₁ _ hkept₁ hinside₁
      have hs₁ := hs.mono hinside₁.schema hkept₁
      apply Feeds.append (feeds_members hset members hinside₁.cursor
        (hinside₁.node h.node) hs₁)
      intro o c₂ hkept₂ hinside₂
      have hs₂ := hs₁.mono hinside₂.schema hkept₂
      have hend := Feeds.one (e := .endMap) (ends_parseEndMap hinside₂.cursor
        (hinside₂.node (hinside₁.node h.node)) hs₂)
      exact hend.mono fun j c' _ hdone => (hinside₁.trans hinside₂).done hdone
  | .array elements, c, p, place, h, hs => by
      simp only [Doc.events, receive]
      apply Feeds.cons (e := .startArray) (ends_parseStart h hs (.array []))
      intro _ c₁ _ hkept₁ hinside₁
      have hs₁ := hs.mono hinside₁.schema hkept₁
      apply Feeds.append (feeds_elements hset elements hinside₁.cursor
        (hinside₁.node h.node) hs₁)
      intro a c₂ hkept₂ hinside₂
      have hs₂ := hs₁.mono hinside₂.schema hkept₂
      have hend := Feeds.one (e := .endArray) (ends_parseEndArray hset hinside₂.cursor
        (hinside₂.node (hinside₁.node h.node)) hs₂)
      exact hend.mono fun j c' _ hdone => (hinside₁.trans hinside₂).done hdone

theorem feeds_members (hset : SetOnSchemas env T) :
    ∀ (members : List (String × Doc)) {c : Context D} {p : Path}
      {place : Option (Place D)} {o : List (String × Json D)}, c.cursor = some p →
    c.json.root.node p = some (.object o) → Points env T c place →
    Feeds env (Doc.memberEvents members) c (receiveMembers env place o members)
      (fun o' c' => Inside c p (.object o') c')
  | [], c, p, place, o, hcursor, hnode, hs => by
      simp only [Doc.memberEvents, receiveMembers]
      exact Feeds.nil (Inside.refl hcursor hnode)
  | (k, d) :: rest, c, p, place, o, hcursor, hnode, hs => by
      have hreceive : receiveMembers env place o ((k, d) :: rest) =
          ((pursue place fun place => judgeKey env place k) >>= fun child =>
            if (o.lookup k).isSome then raised else passed child) >>= fun child =>
              receive env child d >>= fun j =>
                receiveMembers env place (Assoc.insertKey k j o) rest := by
        rw [receiveMembers, andThen_assoc]
        cases o.lookup k with
        | none => rfl
        | some v => rfl
      rw [hreceive, Doc.memberEvents]
      apply Feeds.cons (e := .mapKey k) (ends_parseMapKey hset hcursor hnode hs k)
      intro child c₁ hchild hkept₁ hopened
      have hk : o.lookup k = none := by
        cases hk : o.lookup k with
        | none => rfl
        | some v =>
            cases hv : pursue place fun place => judgeKey env place k <;>
              simp [hk, hv] at hchild
      apply Feeds.append (feeds_events hset d hopened.slot hopened.descends.points)
      intro j c₂ hkept₂ hdone
      have hinside := hopened.inside hdone hkept₂
      rw [modifyStep_insertKey hk] at hinside
      have hrest := feeds_members hset rest hinside.cursor (hinside.node hnode)
        (hs.mono hinside.schema (hkept₁.trans hkept₂))
      exact hrest.mono fun o' c' _ h' => hinside.trans h'

theorem feeds_elements (hset : SetOnSchemas env T) :
    ∀ (elements : List Doc) {c : Context D} {p : Path} {place : Option (Place D)}
      {a : List (Json D)}, c.cursor = some p →
    c.json.root.node p = some (.array a) → Points env T c place →
    Feeds env (Doc.elementEvents elements) c (receiveElements env place a elements)
      (fun a' c' => Inside c p (.array a') c')
  | [], c, p, place, a, hcursor, hnode, hs => by
      simp only [Doc.elementEvents, receiveElements]
      exact Feeds.nil (Inside.refl hcursor hnode)
  | d :: rest, c, p, place, a, hcursor, hnode, hs => by
      have hreceive : receiveElements env place a (d :: rest) =
          (((demand place fun place => judgeMaxSize env place (a.length + 1)) >>= fun _ =>
            pursue place fun place => judgeIndex env place (toInt32 a.length)) >>=
              fun child => receive env child d) >>=
              fun j => receiveElements env place (a ++ [j]) rest := by
        rw [receiveElements, andThen_assoc, andThen_assoc]
      rw [hreceive, Doc.elementEvents]
      have helement : Feeds env d.events c
          (((demand place fun place => judgeMaxSize env place (a.length + 1)) >>= fun _ =>
            pursue place fun place => judgeIndex env place (toInt32 a.length)) >>=
              fun child => receive env child d)
          (fun j c' => Inside c p (.array (a ++ [j])) c') :=
        feeds_place (ends_getObj hset hcursor hnode hs) fun child c₁ hkept₁ hopened =>
          ⟨hopened.slot, (feeds_events hset d hopened.slot hopened.descends.points).mono
            fun j c₂ hkept₂ hdone =>
              modifyStep_snoc a j ▸ hopened.inside hdone hkept₂⟩
      apply Feeds.append helement
      intro j c₁ hkept₁ hinside
      have hrest := feeds_elements hset rest hinside.cursor (hinside.node hnode)
        (hs.mono hinside.schema hkept₁)
      exact hrest.mono fun a' c' _ h' => hinside.trans h'

end

end Events

section Parse

variable {t : Tree D}

theorem slot_start (schema : Option (Tree D)) : Slot (Context.start schema) [] :=
  ⟨rfl, rfl⟩

theorem holds_root (ht : Extends env (Tree.fresh T) t) : Holds env T t [] T :=
  ⟨ht, rfl, rfl⟩

theorem points_start (ht : Extends env (Tree.fresh T) t) :
    Points env T (Context.start (some t)) (some ⟨[], T⟩) :=
  ⟨rfl, holds_root ht⟩

/-- A parse with a schema in use. -/
theorem ends_parse (hset : SetOnSchemas env T) (ht : Extends env (Tree.fresh T) t)
    (d : Doc) :
    Ends parseError parseError (parse env (.document d) (some t))
      (receive env (some ⟨[], T⟩) d) (fun c => Extends env t c.store)
      (fun _ j c => c.json.root = j) := by
  have hfeeds := feeds_events hset d (slot_start (some t)) (points_start ht)
  exact hfeeds.ends.mono (fun _ hkept => hkept) fun _ _ _ _ _ hdone => hdone.root

/-- The schema after the parse of any text. -/
theorem extends_parse (hset : SetOnSchemas env T) (ht : Extends env (Tree.fresh T) t)
    (text : Text) : Extends env t (parse env text (some t)).2.store := by
  cases text with
  | document d => exact (ends_parse hset ht d).1
  | broken d n =>
      have hkept := (feeds_events hset d (slot_start (some t)) (points_start ht)).kept n
      rw [parse, parseText]
      cases hr : outcome (feed env (d.events.take n)) (Context.start (some t)) with
      | mk r c =>
          rw [hr] at hkept
          cases r with
          | error x =>
              rw [outcome_bind_error hr]
              exact hkept
          | ok u =>
              rw [outcome_bind_ok hr, outcome_throw]
              exact hkept

theorem parse_broken (env : Env D) (d : Doc) (n : ℕ) (schema : Option (Tree D)) :
    ∃ e, (parse env (.broken d n) schema).1 = .error e := by
  rw [parse, parseText]
  cases hr : outcome (feed env (d.events.take n)) (Context.start schema) with
  | mk r c =>
      cases r with
      | error x => exact ⟨x, by rw [outcome_bind_error hr]⟩
      | ok u => exact ⟨_, by rw [outcome_bind_ok hr, outcome_throw]⟩

end Parse

section Throwing

variable {t : Tree D} (henv : ∀ p, env.errHandler p = onErrorThrow)

include henv

/-- A parse with a schema in use that was just parsed. -/
theorem meets_parse (ht : Extends env (Tree.fresh T) t) (d : Doc) :
    Meets (parse env (.document d) (some t)) (read env (some T) d)
      (fun c => Extends env t c.store) (fun _ j c => c.json.root = j) := by
  have hends := ends_parse (setOnSchemas_of_throwing henv T) ht d
  rw [receive_respects (respects_throwing henv) d (some ⟨[], T⟩)] at hends
  exact hends.meets

/-- The events of a document without a schema. -/
theorem meets_events (d : Doc) (h : Slot c p) (hschema : c.schema = none) :
    Meets (outcome (feed env d.events) c) (read env none d) (Kept env c)
      (fun _ j c' => Done c p j c') := by
  have hpoints : Points env (.undef : Json D) c none := hschema
  have hends := (feeds_events (setOnSchemas_undef env) d h hpoints).ends
  rw [receive_respects (respects_throwing henv) d none] at hends
  exact hends.meets

/-- A parse without a schema. -/
theorem meets_parse_none (d : Doc) :
    Meets (parse env (.document d) none) (read env none d) (fun _ => True)
      (fun _ j c => c.json.root = j) := by
  have hmeets := meets_events henv d (slot_start none) rfl
  exact hmeets.mono (fun _ _ => trivial) fun _ _ _ _ _ hdone => hdone.root

end Throwing

end Json

end Gearbox
