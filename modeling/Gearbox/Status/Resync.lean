import Gearbox.Status.Published

/-!
# Synchronisation with a remote status

A `JsonStatusImpl` is loaded from a text, and a `JobStatusImpl` runs a job until it succeeds
and is loaded from the content of the response. To synchronise, the state is set to
`STATE_UNKNOWN`, so that any state can follow, and the status is loaded once more. The load
sets only the fields whose keys are there, so that a field that is no longer written keeps
its old value.
-/

namespace Gearbox

namespace Status

open Json Refinement

variable {D : Type}

/-- Where the text comes from: it is given, or it is the content of the first response that
is a success. -/
inductive Origin where
  | json (text : Text)
  | job (responses : List (Bool × Text))

/-- The text that is loaded; the loop over the responses goes on until one is a success. -/
def Origin.text : Origin → Except Failure Text
  | json text => .ok text
  | job responses =>
    match responses.find? Prod.fst with
    | some response => .ok response.2
    | none => .error .diverges

section Sync

variable (clock : ℕ → Int64) (env : Env D)

/-- `JsonStatusImpl::load` or `JobStatusImpl::load` -/
def Origin.load (origin : Origin) (s : StatusImpl D) : Except Failure (StatusImpl D) := do
  let data ← (← parsed env (← origin.text)).copy
  Status.load clock data s

/-- `JsonStatusImpl::sync` or `JobStatusImpl::sync` -/
def Origin.sync (origin : Origin) (s : StatusImpl D) : Except Failure (StatusImpl D) :=
  origin.load clock env (s.setState clock .unknown).2

end Sync

/-- The two statuses report the same. -/
structure Reports (s s' : Private D) : Prop where
  state : s.state = s'.state
  progress : s.progress = s'.progress
  code : s.code = s'.code
  messages : s.messages = s'.messages
  children : s.children = s'.children
  metaData : s.metaData = s'.metaData
  parentUri : s.parentUri = s'.parentUri
  failures : s.failures = s'.failures
  ctime : s.ctime = s'.ctime
  mtime : s.mtime = s'.mtime
  ytime : s.ytime = s'.ytime
  concurrency : s.concurrency = s'.concurrency

/-- What is written for the first status and not for the second has the value of a new
status. -/
structure Outlived (s₁ s₂ : Private D) : Prop where
  code : s₁.progress = 100 → s₂.progress = 100 ∨ s₁.code = -1
  ytime : 0 < s₁.ytime → 0 < s₂.ytime
  metaData : s₂.metaData.empty → s₁.metaData.empty
  parentUri : s₂.parentUri = "" → s₁.parentUri = ""

section Reread

variable {env : Env D}

theorem length_rereadElements {a a' : List (Json D)} (h : rereadElements env a = some a') :
    a'.length = a.length := by
  induction a generalizing a' with
  | nil =>
      cases h
      rfl
  | cons j rest ih =>
      simp only [rereadElements, Option.bind_eq_bind, Option.bind_eq_some_iff] at h
      obtain ⟨j', -, rest', hrest, ha'⟩ := h
      cases ha'
      rw [List.length_cons, List.length_cons, ih hrest]

/-- What is read from the text of a value is empty if and only if the value is. -/
theorem empty_reread {j j' : Json D} (h : reread env j = some j') : j'.empty = j.empty := by
  have hscalar : ∀ {lexeme : String}, value? (lexNumber env lexeme) = some j' →
      j'.empty = false := by
    intro lexeme hvalue
    rcases lexNumber_scalar env (value?_eq_some.mp hvalue) with ⟨n, rfl⟩ | ⟨x, rfl⟩
    · rfl
    · rfl
  cases j with
  | int n => exact hscalar h
  | double x => exact hscalar h
  | object o =>
      rw [reread, Option.map_eq_some_iff] at h
      obtain ⟨o', ho', rfl⟩ := h
      have hlength := congrArg List.length (rereadMembers_eq_some.mp ho').map_fst
      rw [List.length_map, List.length_map] at hlength
      rw [Json.empty, Json.empty, Bool.eq_iff_iff, List.isEmpty_iff_length_eq_zero,
        List.isEmpty_iff_length_eq_zero, hlength]
  | array a =>
      rw [reread] at h
      split at h
      · obtain ⟨a', ha', rfl⟩ := Option.map_eq_some_iff.mp h
        rw [Json.empty, Json.empty, Bool.eq_iff_iff, List.isEmpty_iff_length_eq_zero,
          List.isEmpty_iff_length_eq_zero, length_rereadElements ha']
      · cases h
  | _ =>
      cases h
      rfl

end Reread

section Received

variable {env : Env D} {s : Private D} {j j' : Json D} {base : Uri} {canonical : List Char}
  {children : List String} {metaData : Option (Json D)}

/-- The fields other than the meta data are read as they are. -/
theorem related_fields (hcast : env.lexInt = lexicalCast) {statusUri : String}
    {messages children : List String} (hmessages : messages.length < 2 ^ 31)
    (hchildren : children.length < 2 ^ 31) {metaData metaData' : Option (Json D)}
    (hmeta : Option.Rel (fun j j' => reread env j = some j') metaData metaData') :
    Assoc.Related (Option.Rel fun j j' => reread env j = some j')
      (s.fields statusUri (.array (messages.map .string)) (.array (children.map .string))
        metaData)
      (s.fields statusUri (.array (messages.map .string)) (.array (children.map .string))
        metaData') := by
  have hsplit : ∀ m : Option (Json D), s.fields statusUri (.array (messages.map .string))
      (.array (children.map .string)) m =
      (s.fields statusUri (.array (messages.map .string)) (.array (children.map .string))
        none).take 9 ++ ("meta", m) :: (s.fields statusUri (.array (messages.map .string))
        (.array (children.map .string)) none).drop 10 := fun _ => rfl
  have hsame : ∀ l : List (String × Option (Json D)), (∀ e ∈ l, e ∈ s.fields statusUri
      (.array (messages.map .string)) (.array (children.map .string)) none) →
      Assoc.Related (Option.Rel fun j j' => reread env j = some j') l l := by
    intro l hl
    refine List.forall₂_same.mpr fun e he => ⟨rfl, ?_⟩
    obtain ⟨k, o⟩ := e
    cases o with
    | none => exact .none
    | some v =>
        apply Option.Rel.some
        rcases mem_fields (hl _ he) with ⟨text, rfl⟩ | ⟨n, rfl, hn⟩ | rfl | rfl | hnone
        · rfl
        · rw [reread, lexNumber_toString hcast hn]
          rfl
        · exact reread_strings (by omega)
        · exact reread_strings (by omega)
        · cases hnone
  rw [hsplit metaData, hsplit metaData']
  exact List.rel_append (hsame _ fun e he => List.mem_of_mem_take he)
    (.cons ⟨rfl, hmeta⟩ (hsame _ fun e he => List.mem_of_mem_drop he))

/-- The tree that is read from the text of a status is the object of a status again. Only the
meta data may differ, by the doubles in them. -/
theorem written_reread (hcast : env.lexInt = lexicalCast)
    (h : s.Written j base canonical children metaData) (hread : reread env j = some j')
    (hbounded : j'.Bounded (2 ^ 32 - 1)) :
    ∃ m metaData', m.empty = s.metaData.empty ∧ m.Bounded (2 ^ 32 - 1) ∧
      Private.Written { s with metaData := m } j' base canonical children metaData' := by
  have hlength : children.length < 2 ^ 31 := by
    rw [← (mapM_eq_ok.mp h.children_eq).length_eq]
    exact h.length
  have hmetaData := Private.writeMeta_eq h.meta_eq
  have hobject : ∀ {metaData'}, Option.Rel (fun j j' => reread env j = some j') metaData
      metaData' → j' = .object (Assoc.assignAll (s.fields
        (String.ofList canonical ++ "/status/" ++ s.name) (.array (s.messages.map .string))
        (.array (children.map .string)) metaData') []) := by
    intro metaData' hmeta
    rw [h.object, reread_assignAll (related_fields hcast h.messages hlength hmeta)] at hread
    exact (Option.some.inj hread).symm
  by_cases hempty : s.metaData.empty
  · rw [if_pos hempty] at hmetaData
    refine ⟨s.metaData, none, rfl, Private.bounded_of_writeMeta h.meta_eq, h.base_eq,
      h.canonical_eq, h.messages, h.length, h.children_eq, ?_, hobject ?_⟩
    · rw [Private.writeMeta, if_pos hempty]
      rfl
    · rw [hmetaData]
      exact .none
  · rw [if_neg hempty] at hmetaData
    have hmember : j.member "meta" = some s.metaData := by
      rw [h.member, hmetaData]
      rfl
    obtain ⟨m, hm⟩ : ∃ m, reread env s.metaData = some m := by
      rw [h.object] at hread hmember
      exact reread_member hread hmember
    have hrel : Option.Rel (fun j j' => reread env j = some j') metaData (some m) := by
      rw [hmetaData]
      exact .some hm
    have hobject' := hobject hrel
    have hbounded' : m.Bounded (2 ^ 32 - 1) := by
      rw [hobject', Bounded, boundedMembers_iff] at hbounded
      refine hbounded ("meta", m) ((Assoc.mem_assignAll (s.nodup_fields _ _ _ _)).mpr ?_)
      simp [Private.fields]
    refine ⟨m, some m, empty_reread hm, hbounded', h.base_eq, h.canonical_eq, h.messages,
      h.length, h.children_eq, ?_, hobject'⟩
    rw [Private.writeMeta]
    dsimp only
    rw [empty_reread hm, if_neg hempty, copy_of_bounded hbounded']
    rfl

variable {clock : ℕ → Int64}

theorem exists_of_loadFields {data : Json D} {fields : List (String × Setter D)}
    {a b : StatusImpl D} (h : loadFields data fields a = .ok b) {f : String × Setter D}
    (hf : f ∈ fields) : ∃ a' b', loadField data f.1 f.2 a' = .ok b' := by
  induction fields generalizing a with
  | nil => cases hf
  | cons f₀ rest ih =>
      rw [loadFields, List.foldlM_cons] at h
      obtain ⟨c, hc, hrest⟩ := bind_eq_ok.mp h
      rcases List.mem_cons.mp hf with rfl | hf
      · exact ⟨a, c, hc⟩
      · exact ih hrest hf

/-- If the uri of the status can be read once, it is read whatever the status holds. -/
theorem loads_of_load (h : s.Written j base canonical children metaData) {a b : StatusImpl D}
    (hload : load clock j a = .ok b) :
    ∃ name baseUri, Loads (loadStatusUri clock
      (.string (String.ofList canonical ++ "/status/" ++ s.name) : Json D))
      (fun p => { p with name := name, baseUri := baseUri }) := by
  obtain ⟨c, hbefore, -⟩ := bind_eq_ok.mp hload
  have hmem : (("status_uri", loadStatusUri clock) : String × Setter D) ∈ fieldsBefore clock := by
    simp [fieldsBefore]
  obtain ⟨a', b', hfield⟩ := exists_of_loadFields hbefore hmem
  have hmember : j.member "status_uri" =
      some (.string (String.ofList canonical ++ "/status/" ++ s.name)) := h.member _
  rw [loadField, hmember] at hfield
  obtain ⟨text, htext, hfield⟩ := bind_eq_ok.mp hfield
  cases htext
  obtain ⟨uri, huri, hfield⟩ := bind_eq_ok.mp hfield
  obtain ⟨popped, hpopped, -⟩ := bind_eq_ok.mp hfield
  refine ⟨String.ofList uri.leaf, String.ofList popped, fun p t n => ⟨clock n, n + 1, ?_⟩⟩
  rw [loadStatusUri, asString, ok_bind, huri, ok_bind]
  dsimp only
  rw [hpopped]
  rfl

/-- What is left of a status after another one has been loaded into it. -/
def Private.loaded (s : Private D) (m : Json D) (name baseUri : String)
    (children : List String) (a : Private D) : Private D :=
  { s with
    name := name
    baseUri := baseUri
    children := children
    state := if validStateTransition a.state s.state then s.state else a.state
    metaData := if s.metaData.empty then a.metaData else m
    code := if s.progress = 100 then s.code else a.code
    parentUri := if s.parentUri = "" then a.parentUri else s.parentUri
    ytime := if 0 < s.ytime then s.ytime else a.ytime }

/-- A text that can be loaded once can be loaded into every status. -/
theorem exists_loaded (hcast : env.lexInt = lexicalCast) (hordered : s.metaData.Ordered)
    {text : Text} (hserialize : s.serialize env = .ok text) {origin : Origin}
    (htext : origin.text = .ok text) {a b : StatusImpl D}
    (hload : origin.load clock env a = .ok b) :
    ∃ m name baseUri children, m.empty = s.metaData.empty ∧ ∀ a' : StatusImpl D, ∃ b',
      origin.load clock env a' = .ok b' ∧
        b'.toPrivate = s.loaded m name baseUri children a'.toPrivate := by
  obtain ⟨j, hj, hdocument⟩ := bind_eq_ok.mp hserialize
  obtain ⟨d, hd, hdocument⟩ := bind_eq_ok.mp hdocument
  cases hdocument
  obtain ⟨base, canonical, children, metaData, hwritten⟩ := Private.toJson_eq_ok.mp hj
  rw [Origin.load, htext, ok_bind] at hload
  obtain ⟨j', hparsed, hload⟩ := bind_eq_ok.mp hload
  obtain ⟨data, hcopy, hload⟩ := bind_eq_ok.mp hload
  have hbounded : j'.Bounded (2 ^ 32 - 1) := by
    rcases copy_cases j' with ⟨hbounded, -⟩ | ⟨-, hdiverges⟩
    · exact hbounded
    · rw [hdiverges] at hcopy
      cases hcopy
  have hread : reread env j = some j' := by
    have hresent : resent env j = .ok j' := by
      rw [resent, Json.serialize, hd, ok_bind]
      exact hparsed
    rw [← value?_resent (ordered_written hwritten hordered), hresent]
    rfl
  cases copy_eq hcopy
  obtain ⟨m, metaData', hempty, hm, hwritten'⟩ := written_reread hcast hwritten hread hbounded
  obtain ⟨name, baseUri, hname⟩ := loads_of_load hwritten' hload
  refine ⟨m, name, baseUri, children, hempty, fun a' => ?_⟩
  obtain ⟨b', hb', heq⟩ := load_over clock hwritten' hname hm a'
  refine ⟨b', ?_, ?_⟩
  · rw [Origin.load, htext, ok_bind, hparsed, ok_bind, hcopy, ok_bind]
    exact hb'
  · rw [heq, Private.loaded]
    simp only [hempty]

/-- The time to yield after a load. -/
theorem ytime_load (hcast : env.lexInt = lexicalCast) (hordered : s.metaData.Ordered)
    {text : Text} (hserialize : s.serialize env = .ok text) {origin : Origin}
    (htext : origin.text = .ok text) {a b : StatusImpl D}
    (hload : origin.load clock env a = .ok b) (a' : StatusImpl D) :
    ∃ b', origin.load clock env a' = .ok b' ∧
      b'.ytime = if 0 < s.ytime then s.ytime else a'.ytime := by
  obtain ⟨m, name, baseUri, children, -, hall⟩ :=
    exists_loaded hcast hordered hserialize htext hload
  obtain ⟨b', hb', heq⟩ := hall a'
  refine ⟨b', hb', ?_⟩
  rw [heq]
  rfl

end Received

section Resync

/-- An optional value that is set again, or stays what it was. -/
theorem kept_iff {α : Type} {c₁ c₂ : Prop} [Decidable c₁] [Decidable c₂] {x₁ x₂ x : α} :
    (if c₂ then x₂ else if c₁ then x₁ else x) = (if c₂ then x₂ else x) ↔
      (c₁ → c₂ ∨ x₁ = x) := by
  by_cases hc₂ : c₂
  · simp [hc₂]
  · by_cases hc₁ : c₁
    · simp [hc₁, hc₂]
    · simp [hc₁, hc₂]

/-- A status that is loaded into one that held another against one that is loaded into a new
one. -/
theorem reports_loaded {clock : ℕ → Int64} {s₁ s₂ a : Private D} {m₁ m₂ : Json D}
    {name₁ baseUri₁ name baseUri : String} {children₁ children : List String}
    (hempty : m₁.empty = s₁.metaData.empty)
    (ha : a = { s₁.loaded m₁ name₁ baseUri₁ children₁ (StatusImpl.new clock).toPrivate with
      state := .unknown, mtime := a.mtime }) :
    Reports (s₂.loaded m₂ name baseUri children a)
      (s₂.loaded m₂ name baseUri children (StatusImpl.new clock).toPrivate) ↔
        Outlived s₁ s₂ := by
  have hcode : (s₂.loaded m₂ name baseUri children a).code =
      (s₂.loaded m₂ name baseUri children (StatusImpl.new clock).toPrivate).code ↔
        (s₁.progress = 100 → s₂.progress = 100 ∨ s₁.code = -1) := by
    rw [ha]
    exact kept_iff
  have hytime : (s₂.loaded m₂ name baseUri children a).ytime =
      (s₂.loaded m₂ name baseUri children (StatusImpl.new clock).toPrivate).ytime ↔
        (0 < s₁.ytime → 0 < s₂.ytime) := by
    rw [ha]
    refine Iff.trans kept_iff (imp_congr_right fun hpos => or_iff_left ?_)
    intro hnew
    rw [hnew] at hpos
    change (0 : Int64) < -1 at hpos
    exact absurd hpos (by decide)
  have hmeta : (s₂.loaded m₂ name baseUri children a).metaData =
      (s₂.loaded m₂ name baseUri children (StatusImpl.new clock).toPrivate).metaData ↔
        (s₂.metaData.empty → s₁.metaData.empty) := by
    rw [ha]
    dsimp only [Private.loaded, StatusImpl.new]
    by_cases hempty₂ : s₂.metaData.empty
    · by_cases hempty₁ : s₁.metaData.empty
      · simp [hempty₁]
      · have hne : m₁ ≠ .undef := by
          rintro rfl
          exact hempty₁ (hempty ▸ rfl)
        simp [hempty₁, hempty₂, hne]
    · simp [hempty₂]
  have hparent : (s₂.loaded m₂ name baseUri children a).parentUri =
      (s₂.loaded m₂ name baseUri children (StatusImpl.new clock).toPrivate).parentUri ↔
        (s₂.parentUri = "" → s₁.parentUri = "") := by
    rw [ha]
    dsimp only [Private.loaded, StatusImpl.new]
    by_cases hempty₂ : s₂.parentUri = ""
    · by_cases hempty₁ : s₁.parentUri = ""
      · simp [hempty₁]
      · simp [hempty₁, hempty₂]
    · simp [hempty₂]
  constructor
  · exact fun h => ⟨hcode.mp h.code, hytime.mp h.ytime, hmeta.mp h.metaData,
      hparent.mp h.parentUri⟩
  · intro h
    refine ⟨?_, rfl, hcode.mpr h.code, rfl, rfl, hmeta.mpr h.metaData, hparent.mpr h.parentUri,
      rfl, rfl, rfl, hytime.mpr h.ytime, rfl⟩
    rw [ha]
    rfl

variable {clock : ℕ → Int64} {env : Env D} {s₁ s₂ : Private D} {text₁ text₂ : Text}
  {origin₁ origin₂ : Origin} {loaded fresh : StatusImpl D}

/-- A status that has been loaded and is synchronised reports the same as a fresh one if and
only if no field that was written the first time and is not written the second time differs
from that of a new status. -/
theorem resync_iff (hcast : env.lexInt = lexicalCast) (hordered₁ : s₁.metaData.Ordered)
    (hordered₂ : s₂.metaData.Ordered) (hserialize₁ : s₁.serialize env = .ok text₁)
    (hserialize₂ : s₂.serialize env = .ok text₂) (htext₁ : origin₁.text = .ok text₁)
    (htext₂ : origin₂.text = .ok text₂)
    (hloaded : origin₁.load clock env (StatusImpl.new clock) = .ok loaded)
    (hfresh : origin₂.load clock env (StatusImpl.new clock) = .ok fresh) :
    ∃ synced, origin₂.sync clock env loaded = .ok synced ∧
      (Reports synced.toPrivate fresh.toPrivate ↔ Outlived s₁ s₂) := by
  obtain ⟨m₁, name₁, baseUri₁, children₁, hempty₁, hload₁⟩ :=
    exists_loaded hcast hordered₁ hserialize₁ htext₁ hloaded
  obtain ⟨m₂, name₂, baseUri₂, children₂, hempty₂, hload₂⟩ :=
    exists_loaded hcast hordered₂ hserialize₂ htext₂ hfresh
  obtain ⟨loaded', hloaded', heq₁⟩ := hload₁ (StatusImpl.new clock)
  rw [hloaded] at hloaded'
  cases hloaded'
  obtain ⟨fresh', hfresh', heq₂⟩ := hload₂ (StatusImpl.new clock)
  rw [hfresh] at hfresh'
  cases hfresh'
  obtain ⟨synced, hsynced, heq⟩ := hload₂ (loaded.setState clock .unknown).2
  refine ⟨synced, hsynced, ?_⟩
  obtain ⟨t, n, hstate⟩ := StatusImpl.setState_eq clock loaded .unknown
  rw [hstate] at heq
  rw [heq, heq₂]
  have hloaded₁ : { loaded.toPrivate with state := .unknown, mtime := t } =
      { s₁.loaded m₁ name₁ baseUri₁ children₁ (StatusImpl.new clock).toPrivate with
        state := .unknown, mtime := t } := by
    rw [heq₁]
  exact reports_loaded hempty₁ hloaded₁

end Resync

section Samples

/-- The new status of the service after operations. -/
def afterwards (ops : List (Operation ℤ)) : Private ℤ :=
  (ops.foldl (fun s op => (op.perform (fun _ => 11) s).2) createdResource).toPrivate

theorem ordered_afterwards {ops : List (Operation ℤ)}
    (hmeta : (afterwards ops).metaData = .undef) : (afterwards ops).metaData.Ordered := by
  rw [hmeta]
  trivial

theorem survives_afterwards {ops : List (Operation ℤ)}
    (hbase : (afterwards ops).baseUri = serviceUri) (hname : (afterwards ops).name = "s-1")
    (hchildren : (afterwards ops).children = []) (hmessages : (afterwards ops).messages = [])
    (hmeta : (afterwards ops).metaData = .undef) :
    Survives tenths (fun _ => 11) (afterwards ops) := by
  apply survives_of_short rfl
  · rw [hbase]
    exact web_serviceUri
  · rw [hname]
    decide
  · rw [hname]
    decide
  · rw [hname]
    decide
  · rw [hchildren]
    exact fun _ hc => nomatch hc
  · rw [hmeta]
    trivial
  · exact ordered_afterwards hmeta
  · rw [hmessages, List.length_nil]
    omega
  · rw [hchildren, List.length_nil]
    omega
  · rw [hmeta]
    trivial

/-- A job is seen while it waits, and once more when it runs with another time to yield. -/
theorem resync_running : ∃ text₁ text₂ loaded fresh synced,
    (afterwards [.ytime 500]).serialize tenths = .ok text₁ ∧
    (afterwards [.ytime 500, .state .running, .ytime 600]).serialize tenths = .ok text₂ ∧
    (Origin.json text₁).load (fun _ => 11) tenths (StatusImpl.new fun _ => 11) = .ok loaded ∧
    (Origin.json text₂).load (fun _ => 11) tenths (StatusImpl.new fun _ => 11) = .ok fresh ∧
    (Origin.job [(false, text₁), (true, text₂)]).sync (fun _ => 11) tenths loaded = .ok synced ∧
    Reports synced.toPrivate fresh.toPrivate := by
  have hseen : Survives tenths (fun _ => 11) (afterwards [.ytime 500]) :=
    survives_afterwards rfl rfl rfl rfl rfl
  have hlater : Survives tenths (fun _ => 11)
      (afterwards [.ytime 500, .state .running, .ytime 600]) :=
    survives_afterwards rfl rfl rfl rfl rfl
  obtain ⟨text₁, loaded, hserialize₁, hloaded, -⟩ := hseen
  obtain ⟨text₂, fresh, hserialize₂, hfresh, -⟩ := hlater
  have htext₁ : (Origin.json text₁).text = .ok text₁ := rfl
  have htext₂ : (Origin.job [(false, text₁), (true, text₂)]).text = .ok text₂ := rfl
  obtain ⟨synced, hsynced, hreports⟩ := resync_iff rfl (ordered_afterwards rfl)
    (ordered_afterwards rfl) hserialize₁ hserialize₂ htext₁ htext₂ hloaded hfresh
  refine ⟨text₁, text₂, loaded, fresh, synced, hserialize₁, hserialize₂, hloaded, hfresh,
    hsynced, hreports.mpr ⟨?_, ?_, ?_, ?_⟩⟩
  · exact fun hprogress => absurd (show (0 : UInt32) = 100 from hprogress) (by decide)
  · exact fun _ => show (0 : Int64) < 600 by decide
  · exact fun _ => rfl
  · exact fun _ => rfl

/-- The time to yield of a job that has been woken up is still reported. -/
theorem not_resync : ∃ text₁ text₂ loaded fresh synced,
    (afterwards [.ytime 500]).serialize tenths = .ok text₁ ∧
    (afterwards [.ytime 500, .ytime 0]).serialize tenths = .ok text₂ ∧
    (Origin.json text₁).load (fun _ => 11) tenths (StatusImpl.new fun _ => 11) = .ok loaded ∧
    (Origin.json text₂).load (fun _ => 11) tenths (StatusImpl.new fun _ => 11) = .ok fresh ∧
    (Origin.json text₂).sync (fun _ => 11) tenths loaded = .ok synced ∧
    synced.ytime = 500 ∧ fresh.ytime = -1 ∧ ¬ Reports synced.toPrivate fresh.toPrivate := by
  have hseen : Survives tenths (fun _ => 11) (afterwards [.ytime 500]) :=
    survives_afterwards rfl rfl rfl rfl rfl
  have hlater : Survives tenths (fun _ => 11) (afterwards [.ytime 500, .ytime 0]) :=
    survives_afterwards rfl rfl rfl rfl rfl
  obtain ⟨text₁, loaded, hserialize₁, hloaded, -⟩ := hseen
  obtain ⟨text₂, fresh, hserialize₂, hfresh, -⟩ := hlater
  have htext₁ : (Origin.json text₁).text = .ok text₁ := rfl
  have htext₂ : (Origin.json text₂).text = .ok text₂ := rfl
  obtain ⟨loaded', hloaded', hytime₁⟩ := ytime_load rfl (ordered_afterwards rfl) hserialize₁
    htext₁ hloaded (StatusImpl.new fun _ => 11)
  cases hloaded.symm.trans hloaded'
  have hsecond := ytime_load rfl (ordered_afterwards rfl) hserialize₂ htext₂ hfresh
  obtain ⟨fresh', hfresh', hytime₂⟩ := hsecond (StatusImpl.new fun _ => 11)
  cases hfresh.symm.trans hfresh'
  obtain ⟨synced, hsynced, hytime⟩ := hsecond (loaded.setState (fun _ => 11) .unknown).2
  have hstale : synced.ytime = 500 := by
    obtain ⟨t, n, hstate⟩ := StatusImpl.setState_eq (fun _ => 11) loaded .unknown
    rw [hytime, hstate]
    exact hytime₁
  have hnone : fresh.ytime = -1 := hytime₂
  refine ⟨text₁, text₂, loaded, fresh, synced, hserialize₁, hserialize₂, hloaded, hfresh,
    hsynced, hstale, hnone, ?_⟩
  intro hreports
  have hclash := hreports.ytime
  rw [hstale, hnone] at hclash
  exact absurd hclash (by decide)

end Samples

end Status

end Gearbox
