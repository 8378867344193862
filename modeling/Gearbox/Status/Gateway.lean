import Gearbox.Status.Resource

/-!
# The JSON gateway

`JsonStatusImpl::load` reads the fields of a status from the object that another process
serialized. The name and the base uri are taken from the uri of the status, by taking two
parts off its path. The setters set `mtime`, which is read after the fields that do so.

A status makes the way through the gateway if it can be serialized at all: the text that is
written for the loaded status is the one that it was loaded from.
-/

namespace Gearbox

namespace Status

open Json Refinement

variable {D : Type}

section Load

variable (clock : ℕ → Int64) (data : Json D)

/-- How a field is set from the value of its key. -/
abbrev Setter (D : Type) : Type :=
  Json D → StatusImpl D → Except Failure (StatusImpl D)

/-- What `load` does for a key: the field is set if the key is there. -/
def loadField (k : String) (set : Setter D) (s : StatusImpl D) :
    Except Failure (StatusImpl D) :=
  match data.member k with
  | some v => set v s
  | none => return s

/-- One field after the other. -/
def loadFields (fields : List (String × Setter D)) (s : StatusImpl D) :
    Except Failure (StatusImpl D) :=
  fields.foldlM (fun s f => loadField data f.1 f.2 s) s

/-- The name and the base uri. -/
def loadStatusUri (v : Json D) (s : StatusImpl D) : Except Failure (StatusImpl D) := do
  let uri ← Uri.parse (← v.asString).toList
  let s := s.setName clock (String.ofList uri.leaf)
  return { s with baseUri := String.ofList (← uri.pathPop.pathPop.canonical) }

/-- The loop over an array of strings, which goes up to `length`. -/
def loadElements (add : StatusImpl D → String → StatusImpl D) (v : Json D)
    (s : StatusImpl D) : Except Failure (StatusImpl D) :=
  let elements : List (Json D) :=
    match v with
    | .array a => a.take v.length.toNat
    | _ => []
  elements.foldlM (fun s e => do return add s (← e.asString)) s

/-- The fields that are read before the times, in the order of `load`. -/
def fieldsBefore : List (String × Setter D) :=
  [("operation", fun v s => do return s.setOperation clock (← v.asString)),
    ("component", fun v s => do return s.setComponent clock (← v.asString)),
    ("state", fun v s => do return (s.setState clock (str2state (← v.asString))).2),
    ("uri", fun v s => do return s.setResourceUri clock (← v.asString)),
    ("status_uri", loadStatusUri clock),
    ("meta", fun v s => s.setMeta clock v),
    ("progress", fun v s => do return s.setProgress clock (UInt32.ofInt (← v.asInt64))),
    ("code", fun v s => do return { s with code := Int32.ofInt (← v.asInt64) }),
    ("messages", fun v s =>
      loadElements (StatusImpl.addMessage clock) v { s with messages := [] }),
    ("children", fun v s =>
      loadElements (StatusImpl.addChild clock) v { s with children := [] }),
    ("parent_uri", fun v s => do return s.setParentUri clock (← v.asString)),
    ("failures", fun v s => do return { s with failures := UInt32.ofInt (← v.asInt64) })]

/-- The other fields, whose setters do not ask for the time. -/
def fieldsAfter : List (String × Setter D) :=
  [("ctime", fun v s => do return { s with ctime := Int64.ofInt (← v.asInt64) }),
    ("mtime", fun v s => do return { s with mtime := Int64.ofInt (← v.asInt64) }),
    ("ytime", fun v s => do return { s with ytime := Int64.ofInt (← v.asInt64) }),
    ("concurrency", fun v s => do
      return { s with concurrency := UInt32.ofInt (← v.asInt64) })]

/-- `JsonStatusImpl::load` -/
def load (s : StatusImpl D) : Except Failure (StatusImpl D) := do
  loadFields data fieldsAfter (← loadFields data (fieldsBefore clock) s)

/-- A new `JsonStatusImpl` that is loaded from a text. -/
def loadText (env : Env D) (text : Text) : Except Failure (StatusImpl D) := do
  let data ← (← parsed env text).copy
  load clock data (StatusImpl.new clock)

end Load

/-- The text of the status is loaded, and the text of what was loaded is the same. -/
def Survives (env : Env D) (clock : ℕ → Int64) (s : Private D) : Prop :=
  ∃ text s', s.serialize env = .ok text ∧ loadText clock env text = .ok s' ∧
    s'.toPrivate.serialize env = .ok text

/-- A text of an `http` or `https` uri with a host and without user info, query, fragment
and dot segments. -/
def Web (text : String) : Prop :=
  ∃ u, Uri.parse text.toList = .ok u ∧ u.Httpx ∧ u.hostname ≠ [] ∧ u.username = [] ∧
    '@' ∉ u.hostname ∧ u.query = [] ∧ u.fragment = [] ∧ Uri.NoDots u.path

section Loads

variable {f f' : StatusImpl D → Except Failure (StatusImpl D)} {g g' : Private D → Private D}

/-- A part of `load` changes the fields as `g` says, and `mtime` in any way. -/
def Loads (f : StatusImpl D → Except Failure (StatusImpl D)) (g : Private D → Private D) :
    Prop :=
  ∀ p t n, ∃ t' n', f ⟨{ p with mtime := t }, n⟩ = .ok ⟨{ g p with mtime := t' }, n'⟩

theorem Loads.bind (hf : Loads f g) (hf' : Loads f' g') :
    Loads (fun s => f s >>= f') (fun p => g' (g p)) := by
  intro p t n
  obtain ⟨t₁, n₁, h₁⟩ := hf p t n
  obtain ⟨t₂, n₂, h₂⟩ := hf' (g p) t₁ n₁
  refine ⟨t₂, n₂, ?_⟩
  dsimp only
  rw [h₁, ok_bind, h₂]

variable {data v : Json D} {k : String} {set : Setter D}

/-- The fields one after the other. -/
theorem loads_fields {fields : List (String × Setter D)} {gs : List (Private D → Private D)}
    (h : List.Forall₂ (fun f g => Loads (loadField data f.1 f.2) g) fields gs) :
    Loads (loadFields data fields) (fun p => gs.foldl (fun p g => g p) p) := by
  induction h with
  | nil => exact fun p t n => ⟨t, n, rfl⟩
  | cons hfield _ ih => exact hfield.bind ih

theorem loads_field (h : data.member k = some v) (hset : Loads (set v) g) :
    Loads (loadField data k set) g := by
  intro p t n
  rw [loadField, h]
  exact hset p t n

/-- A key that is there under a condition. -/
theorem loads_optional {c : Prop} [Decidable c]
    (h : data.member k = if c then some v else none) (hset : c → Loads (set v) g)
    (hskip : ¬ c → ∀ p, g p = p) : Loads (loadField data k set) g := by
  by_cases hc : c
  · exact loads_field (h.trans (if_pos hc)) (hset hc)
  · intro p t n
    rw [loadField, h, if_neg hc, hskip hc]
    exact ⟨t, n, rfl⟩

/-- The loop over an array of strings, for the field that `put` sets. -/
theorem loads_elements (put : Private D → List String → Private D)
    {add : StatusImpl D → String → StatusImpl D}
    (hadd : ∀ l x p t n, ∃ t' n', add ⟨{ put p l with mtime := t }, n⟩ x =
      ⟨{ put p (l ++ [x]) with mtime := t' }, n'⟩)
    (texts : List String) (hlength : texts.length < 2 ^ 31) (p : Private D) (t : Int64) (n : ℕ) :
    ∃ t' n', loadElements add (.array (texts.map .string)) ⟨{ put p [] with mtime := t }, n⟩ =
      .ok ⟨{ put p texts with mtime := t' }, n'⟩ := by
  have htake : (texts.map (.string : String → Json D)).take
      (Json.length (.array (texts.map .string) : Json D)).toNat = texts.map .string := by
    have hsame : toInt32 ((texts.map (.string : String → Json D)).length : ℤ) = texts.length := by
      rw [List.length_map]
      exact Int.bmod_eq_of_le (by omega) (by omega)
    rw [Json.length, hsame, Int.toNat_natCast, List.take_of_length_le (by rw [List.length_map])]
  have hloop : ∀ (rest l : List String) (t : Int64) (n : ℕ), ∃ t' n',
      (rest.map .string).foldlM (fun s (e : Json D) => do return add s (← e.asString))
        (⟨{ put p l with mtime := t }, n⟩ : StatusImpl D) =
          .ok ⟨{ put p (l ++ rest) with mtime := t' }, n'⟩ := by
    intro rest
    induction rest with
    | nil =>
        intro l t n
        rw [List.append_nil]
        exact ⟨t, n, rfl⟩
    | cons x rest ih =>
        intro l t n
        obtain ⟨t₁, n₁, hx⟩ := hadd l x p t n
        obtain ⟨t₂, n₂, hrest⟩ := ih (l ++ [x]) t₁ n₁
        rw [List.append_assoc] at hrest
        refine ⟨t₂, n₂, ?_⟩
        rw [List.map_cons, List.foldlM_cons, asString, ok_bind, hx]
        exact hrest
  rw [loadElements]
  dsimp only
  rw [htake]
  exact hloop texts [] t n

end Loads

section Through

/-- The fields that are loaded from the text of a status. What is not written has the value
of a new status. -/
def Private.through (s : Private D) (baseUri : String) (children : List String) :
    Private D where
  messages := s.messages
  children := children
  name := s.name
  operation := s.operation
  metaData := if s.metaData.empty then .undef else s.metaData
  progress := s.progress
  code := if s.progress = 100 then s.code else -1
  resourceUri := s.resourceUri
  parentUri := s.parentUri
  ctime := s.ctime
  mtime := s.mtime
  ytime := if 0 < s.ytime then s.ytime else -1
  baseUri := baseUri
  state := s.state
  failures := s.failures
  component := s.component
  concurrency := s.concurrency

variable {s : Private D} {j : Json D} {base : Uri} {canonical : List Char}
  {children : List String} {metaData : Option (Json D)}

theorem Private.Written.member (h : s.Written j base canonical children metaData) (k : String) :
    j.member k = ((s.fields (String.ofList canonical ++ "/status/" ++ s.name)
      (.array (s.messages.map .string)) (.array (children.map .string)) metaData).lookup
        k).join := by
  rw [h.object]
  exact Assoc.lookup_assignAll (s.nodup_fields _ _ _ _) k

theorem Private.writeMeta_eq (h : s.writeMeta = .ok metaData) :
    metaData = if s.metaData.empty then none else some s.metaData := by
  rw [writeMeta] at h
  split at h
  · rename_i hempty
    cases h
    exact (if_pos hempty).symm
  · rename_i hempty
    obtain ⟨copied, hcopied, h⟩ := bind_eq_ok.mp h
    cases h
    rw [if_neg hempty, copy_eq hcopied]

theorem ofInt_toNat (x : UInt32) : UInt32.ofInt (x.toNat : ℤ) = x := by
  have hlt : (x.toNat : ℤ) < 2 ^ 32 := by
    have hx := UInt32.toNat_lt x
    omega
  rw [UInt32.ofInt, Int.emod_eq_of_lt (by omega) hlt, Int.toNat_natCast, UInt32.ofNat_toNat]

variable (clock : ℕ → Int64)

theorem loads_state (st : State) :
    Loads (fun s : StatusImpl D => do
      return (s.setState clock (str2state (← (.string (state2str st) : Json D).asString))).2)
      (fun p => { p with state := if validStateTransition p.state st then st else p.state }) := by
  intro p t n
  obtain ⟨t', n', hstate⟩ := StatusImpl.setState_eq clock ⟨{ p with mtime := t }, n⟩ st
  refine ⟨t', n', ?_⟩
  change Except.ok (StatusImpl.setState clock _ (str2state (state2str st))).2 = _
  rw [str2state_state2str, hstate]

/-- The name and the base uri are read from the uri of the status. -/
theorem loads_statusUri (hbase : base.Plain) (hcanonical : base.canonical = .ok canonical)
    {name : String} (hslash : '/' ∉ name.toList) (hquery : '?' ∉ name.toList)
    (hfragment : '#' ∉ name.toList) :
    Loads (loadStatusUri clock (.string (String.ofList canonical ++ "/status/" ++ name) : Json D))
      (fun p => { p with name := name, baseUri := String.ofList canonical }) := by
  have hstatus : "status".toList = ['s', 't', 'a', 't', 'u', 's'] := by decide
  have hseparator : "/status/".toList = '/' :: "status".toList ++ ['/'] := by decide
  have htext : (String.ofList canonical ++ "/status/" ++ name).toList =
      base.site ++ Uri.canonicalizePath base.path ++ '/' :: "status".toList ++
        '/' :: name.toList := by
    rw [hbase.canonical_eq] at hcanonical
    cases hcanonical
    rw [String.toList_append, String.toList_append, String.toList_ofList, hseparator]
    simp
  obtain ⟨v, hparse, hleaf, hpop⟩ := hbase.parse_leaf (a := "status".toList)
    (b := name.toList) (by decide) hslash
    (by rw [hstatus]; simpa using hfragment) (by rw [hstatus]; simpa using hquery)
  rw [← hbase.canonical_eq, hcanonical] at hpop
  intro p t n
  refine ⟨clock n, n + 1, ?_⟩
  rw [loadStatusUri, asString, ok_bind, htext, hparse, ok_bind]
  dsimp only
  rw [hpop, ok_bind, hleaf, String.ofList_toList]
  rfl

/-- The fields that are read before the times. -/
theorem loads_fieldsBefore (h : s.Written j base canonical children metaData)
    {name baseUri : String}
    (hname : Loads (loadStatusUri clock
      (.string (String.ofList canonical ++ "/status/" ++ s.name) : Json D))
      (fun p => { p with name := name, baseUri := baseUri }))
    (hmeta : s.metaData.Bounded (2 ^ 32 - 1)) :
    Loads (loadFields j (fieldsBefore clock)) (fun p => { p with
      operation := s.operation
      component := s.component
      state := if validStateTransition p.state s.state then s.state else p.state
      resourceUri := s.resourceUri
      name := name
      baseUri := baseUri
      metaData := if s.metaData.empty then p.metaData else s.metaData
      progress := s.progress
      code := if s.progress = 100 then s.code else p.code
      messages := s.messages
      children := children
      parentUri := if s.parentUri = "" then p.parentUri else s.parentUri
      failures := s.failures }) := by
  have hlength : children.length < 2 ^ 31 := by
    rw [← (mapM_eq_ok.mp h.children_eq).length_eq]
    exact h.length
  have hmessages : Loads (fun s' : StatusImpl D => loadElements (StatusImpl.addMessage clock)
      (.array (s.messages.map .string)) { s' with messages := [] })
      (fun p => { p with messages := s.messages }) :=
    loads_elements (fun p l => { p with messages := l }) (fun l x p t n => ⟨_, _, rfl⟩)
      s.messages h.messages
  have hchildren : Loads (fun s' : StatusImpl D => loadElements (StatusImpl.addChild clock)
      (.array (children.map .string)) { s' with children := [] })
      (fun p => { p with children := children }) :=
    loads_elements (fun p l => { p with children := l }) (fun l x p t n => ⟨_, _, rfl⟩)
      children hlength
  have hmetaData : j.member "meta" =
      if ¬ s.metaData.empty then some s.metaData else none := by
    rw [h.member, Private.writeMeta_eq h.meta_eq, ite_not]
    rfl
  have hparent : j.member "parent_uri" =
      if ¬ s.parentUri = "" then some (.string s.parentUri) else none := by
    rw [h.member, ite_not]
    rfl
  have hall : List.Forall₂ (fun f g => Loads (loadField j f.1 f.2) g) (fieldsBefore clock)
      [fun p => { p with operation := s.operation },
        fun p => { p with component := s.component },
        fun p => { p with
          state := if validStateTransition p.state s.state then s.state else p.state },
        fun p => { p with resourceUri := s.resourceUri },
        fun p => { p with name := name, baseUri := baseUri },
        fun p => { p with metaData := if s.metaData.empty then p.metaData else s.metaData },
        fun p => { p with progress := s.progress },
        fun p => { p with code := if s.progress = 100 then s.code else p.code },
        fun p => { p with messages := s.messages },
        fun p => { p with children := children },
        fun p => { p with
          parentUri := if s.parentUri = "" then p.parentUri else s.parentUri },
        fun p => { p with failures := s.failures }] := by
    rw [fieldsBefore]
    refine .cons ?_ <| .cons ?_ <| .cons ?_ <| .cons ?_ <| .cons ?_ <| .cons ?_ <| .cons ?_ <|
      .cons ?_ <| .cons ?_ <| .cons ?_ <| .cons ?_ <| .cons ?_ .nil
    all_goals dsimp only
    · exact loads_field (v := .string s.operation) (h.member _) fun p t n => ⟨_, _, rfl⟩
    · exact loads_field (v := .string s.component) (h.member _) fun p t n => ⟨_, _, rfl⟩
    · exact loads_field (v := .string (state2str s.state)) (h.member _)
        (loads_state clock s.state)
    · exact loads_field (v := .string s.resourceUri) (h.member _) fun p t n => ⟨_, _, rfl⟩
    · exact loads_field (v := .string (String.ofList canonical ++ "/status/" ++ s.name))
        (h.member _) hname
    · refine loads_optional hmetaData (fun hc p t n => ⟨clock n, n + 1, ?_⟩) fun hc p => ?_
      · dsimp only
        rw [StatusImpl.setMeta, copy_of_bounded hmeta, if_neg hc]
        rfl
      · rw [if_pos (not_not.mp hc)]
    · refine loads_field (v := .int s.progress.toNat) (h.member _)
        fun p t n => ⟨clock n, n + 1, ?_⟩
      dsimp only
      rw [asInt64, ok_bind, ofInt_toNat]
      rfl
    · refine loads_optional (v := .int s.code.toInt) (c := s.progress = 100) (h.member _)
        (fun hc p t n => ⟨t, n, ?_⟩) fun hc p => ?_
      · dsimp only
        rw [asInt64, ok_bind, Int32.ofInt_toInt, if_pos hc]
        rfl
      · rw [if_neg hc]
    · exact loads_field (v := .array (s.messages.map .string)) (h.member _) hmessages
    · exact loads_field (v := .array (children.map .string)) (h.member _) hchildren
    · refine loads_optional hparent (fun hc p t n => ⟨clock n, n + 1, ?_⟩) fun hc p => ?_
      · dsimp only
        rw [if_neg hc]
        rfl
      · rw [if_pos (not_not.mp hc)]
    · refine loads_field (v := .int s.failures.toNat) (h.member _) fun p t n => ⟨t, n, ?_⟩
      dsimp only
      rw [asInt64, ok_bind, ofInt_toNat]
      rfl
  exact loads_fields hall

theorem loadFields_after (h : s.Written j base canonical children metaData)
    (s' : StatusImpl D) : loadFields j fieldsAfter s' = .ok { s' with
      ctime := s.ctime
      mtime := s.mtime
      ytime := if 0 < s.ytime then s.ytime else s'.ytime
      concurrency := s.concurrency } := by
  have hctime : j.member "ctime" = some (.int s.ctime.toInt) := h.member _
  have hmtime : j.member "mtime" = some (.int s.mtime.toInt) := h.member _
  have hytime : j.member "ytime" = if 0 < s.ytime then some (.int s.ytime.toInt) else none :=
    h.member _
  have hconcurrency : j.member "concurrency" = some (.int s.concurrency.toNat) := h.member _
  simp only [loadFields, fieldsAfter, List.foldlM_cons, List.foldlM_nil, loadField, hctime,
    hmtime, hconcurrency, asInt64, ok_bind, Int64.ofInt_toInt, ofInt_toNat, pure, Except.pure]
  by_cases hpositive : 0 < s.ytime
  · rw [hytime, if_pos hpositive, if_pos hpositive]
    dsimp only
    rw [ok_bind, ok_bind, Int64.ofInt_toInt]
  · rw [hytime, if_neg hpositive, if_neg hpositive]
    rfl

/-- What is loaded from the object of a status; a field that is not written stays. -/
theorem load_over (h : s.Written j base canonical children metaData) {name baseUri : String}
    (hname : Loads (loadStatusUri clock
      (.string (String.ofList canonical ++ "/status/" ++ s.name) : Json D))
      (fun p => { p with name := name, baseUri := baseUri }))
    (hmeta : s.metaData.Bounded (2 ^ 32 - 1)) (a : StatusImpl D) :
    ∃ s', load clock j a = .ok s' ∧ s'.toPrivate = { s with
      name := name
      baseUri := baseUri
      children := children
      state := if validStateTransition a.state s.state then s.state else a.state
      metaData := if s.metaData.empty then a.metaData else s.metaData
      code := if s.progress = 100 then s.code else a.code
      parentUri := if s.parentUri = "" then a.parentUri else s.parentUri
      ytime := if 0 < s.ytime then s.ytime else a.ytime } := by
  obtain ⟨t, n, hbefore⟩ := loads_fieldsBefore clock h hname hmeta a.toPrivate a.mtime a.asked
  have hload : load clock j a = loadFields j fieldsAfter _ :=
    congrArg (fun r => r >>= loadFields j fieldsAfter) hbefore
  rw [loadFields_after h] at hload
  exact ⟨_, hload, rfl⟩

/-- What is loaded from the object of a status into a new one. -/
theorem load_written (h : s.Written j base canonical children metaData)
    (hbase : base.Plain) (hslash : '/' ∉ s.name.toList) (hquery : '?' ∉ s.name.toList)
    (hfragment : '#' ∉ s.name.toList) (hmeta : s.metaData.Bounded (2 ^ 32 - 1)) :
    ∃ s', load clock j (StatusImpl.new clock) = .ok s' ∧
      s'.toPrivate = s.through (String.ofList canonical) children := by
  obtain ⟨s', hload, hs'⟩ := load_over clock h
    (loads_statusUri clock hbase h.canonical_eq hslash hquery hfragment) hmeta
    (StatusImpl.new clock)
  refine ⟨s', hload, ?_⟩
  have hparent : (if s.parentUri = "" then "" else s.parentUri) = s.parentUri := by
    split
    · rename_i hnone
      exact hnone.symm
    · rfl
  rw [hs', Private.through]
  simp only [StatusImpl.new, hparent, validStateTransition_unknown_left, if_true]

end Through

section Again

variable {env : Env D} {s : Private D} {j : Json D} {base v : Uri} {canonical : List Char}
  {children : List String} {metaData : Option (Json D)}

theorem Web.plain {text : String} (h : Web text) :
    ∃ u, Uri.parse text.toList = .ok u ∧ u.Plain := by
  obtain ⟨u, hparse, hhttpx, hhost, hname, huser, hquery, hfragment, hdots⟩ := h
  exact ⟨u, hparse, Uri.parsed_of_parse hparse hhttpx, hhost, hname, huser, hquery, hfragment,
    hdots⟩

theorem external_of_ne (hv : v.Httpx) (hlocal : v.hostname ≠ localhost) :
    external base v = .ok v := by
  rw [external, hv.getHostname, ok_bind, if_neg hlocal]
  rfl

theorem external_of_eq (hv : v.Httpx) (hbase : base.Httpx) (hlocal : v.hostname = localhost) :
    external base v = .ok { v with hostname := Uri.toLower base.hostname } := by
  rw [external, hv.getHostname, ok_bind, if_pos hlocal, hbase.getHostname, ok_bind,
    hv.setHostname]

/-- The canonical form of a child is written as it is, if its host is not to be replaced. -/
theorem writeChild_canonical (hv : v.Plain) (hbase : base.Httpx)
    (hhost : v.hostname = localhost → base.hostname = localhost) :
    writeChild base (String.ofList (v.site ++ Uri.canonicalizePath v.path)) =
      .ok (String.ofList (v.site ++ Uri.canonicalizePath v.path)) := by
  obtain ⟨path, hparse, hcanonical⟩ := hv.parse_canonical
  have hhttpx : (v.located path).Httpx := hv.httpx
  have hexternal : external base (v.located path) = .ok (v.located path) := by
    by_cases hlocal : v.hostname = localhost
    · rw [external_of_eq hhttpx hbase hlocal, hhost hlocal, Uri.located, hlocal]
      rfl
    · exact external_of_ne hhttpx hlocal
  rw [writeChild, String.toList_ofList, hparse, ok_bind, hexternal, ok_bind, hcanonical, ok_bind]
  rfl

/-- The uri of a child with its host replaced. -/
theorem plain_hostname (hbase : base.Plain) (hv : v.Plain) :
    Uri.Plain { v with hostname := base.hostname } where
  httpx := hv.httpx
  host := hbase.host
  port_ne := hv.port_ne
  port_int := hv.port_int
  fragment := hv.fragment
  query := hv.query
  hostname_ne := hbase.hostname_ne
  username_eq := hv.username_eq
  user := hbase.user
  query_eq := hv.query_eq
  fragment_eq := hv.fragment_eq
  noDots := hv.noDots

/-- What is written for a child is the canonical form of a uri whose host is not replaced. -/
theorem exists_writeChild (hbase : base.Plain) {child : String} (hchild : Web child) :
    ∃ u : Uri, u.Plain ∧ (u.hostname = localhost → base.hostname = localhost) ∧
      writeChild base child = .ok (String.ofList (u.site ++ Uri.canonicalizePath u.path)) := by
  obtain ⟨v, hparse, hv⟩ := hchild.plain
  have hlower : Uri.toLower base.hostname = base.hostname :=
    Uri.toLower_eq_self fun c hc => (hbase.host c hc).2.2
  by_cases hlocal : v.hostname = localhost
  · have hu : Uri.Plain { v with hostname := base.hostname } := plain_hostname hbase hv
    refine ⟨{ v with hostname := base.hostname }, hu, id, ?_⟩
    rw [writeChild, hparse, ok_bind, external_of_eq hv.httpx hbase.httpx hlocal, hlower, ok_bind,
      hu.canonical_eq, ok_bind]
    rfl
  · refine ⟨v, hv, fun h => absurd h hlocal, ?_⟩
    rw [writeChild, hparse, ok_bind, external_of_ne hv.httpx hlocal, ok_bind, hv.canonical_eq,
      ok_bind]
    rfl

/-- The children that were written are written again as they are. -/
theorem mapM_writeChild (hbase : base.Plain) {texts : List String}
    (htexts : ∀ c ∈ texts, Web c) (h : texts.mapM (writeChild base) = .ok children)
    (path : List Char) : children.mapM (writeChild (base.located path)) = .ok children := by
  have hwritten : ∀ c ∈ children, writeChild (base.located path) c = .ok c := by
    have hall := mapM_eq_ok.mp h
    clear h
    induction hall with
    | nil => exact fun c hc => nomatch hc
    | cons hc _ ih =>
        obtain ⟨u, hu, hhost, hwrite⟩ := exists_writeChild hbase (htexts _ List.mem_cons_self)
        rw [hc] at hwrite
        cases hwrite
        intro c' hc'
        rcases List.mem_cons.mp hc' with rfl | hc'
        · exact writeChild_canonical hu hbase.httpx hhost
        · exact ih (fun c hc => htexts c (List.mem_cons_of_mem _ hc)) c' hc'
  exact mapM_eq_ok.mpr (List.forall₂_same.mpr hwritten)

/-- A status that was loaded has the same fields to write. -/
theorem fields_through (s : Private D) (baseUri : String) (children : List String) :
    (s.through baseUri children).fields = s.fields := by
  have hcode : (if s.progress = 100 then
      some (.int (if s.progress = 100 then s.code else -1).toInt : Json D) else none) =
        if s.progress = 100 then some (.int s.code.toInt) else none := by
    split
    · rfl
    · rfl
  have hytime : (if 0 < (if 0 < s.ytime then s.ytime else -1) then
      some (.int (if 0 < s.ytime then s.ytime else -1).toInt : Json D) else none) =
        if 0 < s.ytime then some (.int s.ytime.toInt) else none := by
    by_cases hpositive : 0 < s.ytime
    · rw [if_pos hpositive]
    · rw [if_neg hpositive, if_neg hpositive]
      rfl
  funext statusUri messages childrenJson metaData
  rw [Private.fields, Private.fields, Private.through]
  dsimp only
  rw [hcode, hytime]

theorem writeMeta_through (h : s.writeMeta = .ok metaData) (baseUri : String)
    (children : List String) : (s.through baseUri children).writeMeta = .ok metaData := by
  rw [Private.writeMeta, Private.through] at *
  dsimp only
  by_cases hempty : s.metaData.empty = true
  · rw [if_pos hempty] at h ⊢
    exact h
  · rw [if_neg hempty] at h ⊢
    rw [if_neg hempty]
    exact h

/-- The object of what was loaded is the object that it was loaded from. -/
theorem written_through (h : s.Written j base canonical children metaData)
    (hbase : base.Plain) (hchildren : ∀ c ∈ s.children, Web c) :
    ∃ base', (s.through (String.ofList canonical) children).Written j base' canonical children
      metaData := by
  have hcanonical : canonical = base.site ++ Uri.canonicalizePath base.path := by
    have hcanonical := h.canonical_eq
    rw [hbase.canonical_eq] at hcanonical
    cases hcanonical
    rfl
  obtain ⟨path, hparse, hagain⟩ := hbase.parse_canonical
  rw [← hcanonical] at hparse hagain
  refine ⟨base.located path, ?_, hagain, h.messages, ?_, mapM_writeChild hbase hchildren
    h.children_eq path, ?_, ?_⟩
  · have hne : String.ofList canonical ≠ "" := by
      intro hempty
      have hnil : canonical = [] := by
        rw [← String.toList_ofList (l := canonical), hempty]
        rfl
      rw [hcanonical, Uri.site] at hnil
      simp at hnil
    rw [Private.base, Private.through, if_neg hne, String.toList_ofList, hparse]
  · change children.length < 2 ^ 31
    rw [← (mapM_eq_ok.mp h.children_eq).length_eq]
    exact h.length
  · exact writeMeta_through h.meta_eq _ _
  · rw [h.object, fields_through]
    rfl

theorem isInt64_toNat (x : UInt32) : IsInt64 (x.toNat : ℤ) := by
  have hlt := UInt32.toNat_lt x
  rw [IsInt64]
  omega

theorem isInt64_toInt (x : Int64) : IsInt64 x.toInt :=
  ⟨Int64.le_toInt x, Int64.toInt_lt x⟩

theorem isInt64_code (x : Int32) : IsInt64 x.toInt := by
  have hle := Int32.le_toInt x
  have hlt := Int32.toInt_lt x
  rw [IsInt64]
  omega

/-- What the values of the fields are. -/
theorem mem_fields {statusUri k : String} {messages children v : Json D}
    (h : (k, some v) ∈ s.fields statusUri messages children metaData) :
    (∃ text, v = .string text) ∨ (∃ n, v = .int n ∧ IsInt64 n) ∨ v = messages ∨
      v = children ∨ metaData = some v := by
  have hoption : ∀ {c : Prop} [Decidable c] {w : Json D},
      (if c then some w else none) = some v → w = v := by
    intro c _ w hw
    split at hw
    · exact Option.some.inj hw
    · cases hw
  simp only [Private.fields, List.mem_cons, List.not_mem_nil, or_false, Prod.mk.injEq,
    Option.some.injEq] at h
  rcases h with ⟨-, rfl⟩ | ⟨-, rfl⟩ | ⟨-, rfl⟩ | ⟨-, rfl⟩ | ⟨-, rfl⟩ | ⟨-, rfl⟩ | ⟨-, h⟩ |
    ⟨-, rfl⟩ | ⟨-, rfl⟩ | ⟨-, h⟩ | ⟨-, h⟩ | ⟨-, rfl⟩ | ⟨-, rfl⟩ | ⟨-, rfl⟩ | ⟨-, h⟩ | ⟨-, rfl⟩
  · exact .inl ⟨_, rfl⟩
  · exact .inl ⟨_, rfl⟩
  · exact .inl ⟨_, rfl⟩
  · exact .inl ⟨_, rfl⟩
  · exact .inl ⟨_, rfl⟩
  · exact .inr (.inl ⟨_, rfl, isInt64_toNat _⟩)
  · exact .inr (.inl ⟨_, (hoption h.symm).symm, isInt64_code _⟩)
  · exact .inr (.inr (.inl rfl))
  · exact .inr (.inr (.inr (.inl rfl)))
  · exact .inr (.inr (.inr (.inr h.symm)))
  · rw [← ite_not] at h
    exact .inl ⟨_, (hoption h.symm).symm⟩
  · exact .inr (.inl ⟨_, rfl, isInt64_toNat _⟩)
  · exact .inr (.inl ⟨_, rfl, isInt64_toInt _⟩)
  · exact .inr (.inl ⟨_, rfl, isInt64_toInt _⟩)
  · exact .inr (.inl ⟨_, (hoption h.symm).symm, isInt64_toInt _⟩)
  · exact .inr (.inl ⟨_, rfl, isInt64_toNat _⟩)

/-- A value that is copied, and that is read from its text. -/
structure Resendable (env : Env D) (v : Json D) : Prop where
  ordered : v.Ordered
  bounded : v.Bounded (2 ^ 32 - 1)
  reread_eq : reread env v = some v

theorem resendable_strings {texts : List String} (h : texts.length < 2 ^ 31) :
    Resendable env (.array (texts.map .string)) := by
  refine ⟨ordered_strings texts, ⟨?_, ?_⟩, reread_strings (by omega)⟩
  · rw [List.length_map]
    omega
  · rw [boundedElements_iff]
    intro e he
    obtain ⟨text, -, rfl⟩ := List.mem_map.mp he
    trivial

/-- An object that is made by assignments of such values. -/
theorem resendable_assignAll {fields : List (String × Option (Json D))}
    (h : ∀ k v, (k, some v) ∈ fields → Resendable env v) :
    Resendable env (.object (Assoc.assignAll fields [])) := by
  refine ⟨ordered_assignAll fun k v hmem => (h k v hmem).ordered, ?_, reread_assignAll ?_⟩
  · rw [Bounded, boundedMembers_iff]
    exact Assoc.forall_assignAll fun k v hmem => (h k v hmem).bounded
  · refine List.forall₂_same.mpr fun e he => ⟨rfl, ?_⟩
    obtain ⟨k, o⟩ := e
    cases o with
    | none => exact .none
    | some v => exact .some (h k v he).reread_eq

theorem Resendable.resent_eq {v : Json D} (h : Resendable env v) : resent env v = .ok v := by
  have hread := h.reread_eq
  rw [← value?_resent h.ordered] at hread
  exact value?_eq_some.mp hread

/-- The object of a resource is such a value if the meta data are. -/
theorem resendable_written (hcast : env.lexInt = lexicalCast)
    (h : s.Written j base canonical children metaData) (hmeta : Resendable env s.metaData) :
    Resendable env j := by
  have hlength : children.length < 2 ^ 31 := by
    rw [← (mapM_eq_ok.mp h.children_eq).length_eq]
    exact h.length
  have hmetaData : ∀ v, metaData = some v → v = s.metaData := by
    intro v hv
    have heq := Private.writeMeta_eq h.meta_eq
    rw [hv] at heq
    split at heq
    · cases heq
    · exact Option.some.inj heq
  rw [h.object]
  apply resendable_assignAll
  intro k v hmem
  rcases mem_fields hmem with ⟨text, rfl⟩ | ⟨n, rfl, hn⟩ | rfl | rfl | hv
  · exact ⟨trivial, trivial, rfl⟩
  · refine ⟨trivial, trivial, ?_⟩
    rw [reread, lexNumber_toString hcast hn]
    rfl
  · exact resendable_strings h.messages
  · exact resendable_strings hlength
  · rw [hmetaData v hv]
    exact hmeta

theorem Private.bounded_of_writeMeta (h : s.writeMeta = .ok metaData) :
    s.metaData.Bounded (2 ^ 32 - 1) := by
  rw [writeMeta] at h
  split at h
  · rename_i hempty
    cases hvalue : s.metaData with
    | object o =>
        rw [hvalue, Json.empty, List.isEmpty_iff] at hempty
        rw [hempty]
        trivial
    | array a =>
        rw [hvalue, Json.empty, List.isEmpty_iff] at hempty
        rw [hempty]
        exact ⟨Nat.zero_le _, trivial⟩
    | _ => trivial
  · obtain ⟨copied, hcopied, -⟩ := bind_eq_ok.mp h
    rcases copy_cases s.metaData with ⟨hbounded, -⟩ | ⟨-, hcopy⟩
    · exact hbounded
    · rw [hcopy] at hcopied
      cases hcopied

end Again

section Survival

variable {env : Env D} {clock : ℕ → Int64} {s : Private D}

theorem Survives.short (h : Survives env clock s) : s.messages.length < 2 ^ 31 ∧
    s.children.length < 2 ^ 31 ∧ s.metaData.Bounded (2 ^ 32 - 1) := by
  obtain ⟨text, s', hserialize, -⟩ := h
  obtain ⟨j, hj, -⟩ := bind_eq_ok.mp hserialize
  obtain ⟨base, canonical, children, metaData, hwritten⟩ := Private.toJson_eq_ok.mp hj
  exact ⟨hwritten.messages, hwritten.length, Private.bounded_of_writeMeta hwritten.meta_eq⟩

theorem survives_of_short (hcast : env.lexInt = lexicalCast) (hbase : Web s.baseUri)
    (hslash : '/' ∉ s.name.toList) (hquery : '?' ∉ s.name.toList)
    (hfragment : '#' ∉ s.name.toList) (hchildren : ∀ c ∈ s.children, Web c)
    (hmeta : s.metaData.Integral) (hordered : s.metaData.Ordered)
    (hmessages : s.messages.length < 2 ^ 31) (hlength : s.children.length < 2 ^ 31)
    (hbounded : s.metaData.Bounded (2 ^ 32 - 1)) : Survives env clock s := by
  obtain ⟨base, hparse, hplain⟩ := hbase.plain
  have hne : s.baseUri ≠ "" := by
    intro hempty
    rw [hempty] at hparse
    cases hparse
  have hbaseUri : s.base = .ok base := by
    rw [Private.base, if_neg hne, hparse]
  obtain ⟨children, hwrite⟩ : ∃ children, s.children.mapM (writeChild base) = .ok children := by
    apply exists_mapM
    intro c hc
    obtain ⟨u, -, -, hwrite⟩ := exists_writeChild hplain (hchildren c hc)
    exact ⟨_, hwrite⟩
  obtain ⟨metaData, hmetaData⟩ : ∃ metaData, s.writeMeta = .ok metaData := by
    rw [Private.writeMeta, copy_of_bounded hbounded]
    split
    · exact ⟨none, rfl⟩
    · exact ⟨some s.metaData, rfl⟩
  have hwritten := Private.Written.mk hbaseUri hplain.canonical_eq hmessages hlength hwrite
    hmetaData rfl
  have hkept : Resendable env s.metaData := by
    rcases reread_cases hcast s.metaData hmeta with ⟨-, hreread⟩ | ⟨hlong, -⟩
    · exact ⟨hordered, hbounded, hreread⟩
    · exact absurd hbounded hlong
  have hobject := resendable_written hcast hwritten hkept
  obtain ⟨text, htext, hparsed⟩ := bind_eq_ok.mp hobject.resent_eq
  obtain ⟨s', hload, hs'⟩ := load_written clock hwritten hplain hslash hquery hfragment hbounded
  obtain ⟨base', hagain⟩ := written_through hwritten hplain hchildren
  refine ⟨text, s', ?_, ?_, ?_⟩
  · rw [Private.serialize, Private.toJson_eq_ok.mpr ⟨_, _, _, _, hwritten⟩, ok_bind, htext]
  · rw [loadText, hparsed, ok_bind, copy_of_bounded hobject.bounded, ok_bind, hload]
  · rw [hs', Private.serialize, Private.toJson_eq_ok.mpr ⟨_, _, _, _, hagain⟩, ok_bind, htext]

/-- A status whose base uri and children are plain uris makes the way through the gateway if
and only if its messages, its children and the arrays of its meta data are few enough for the
loops of the serialization. -/
theorem survives_iff (hcast : env.lexInt = lexicalCast) (hbase : Web s.baseUri)
    (hslash : '/' ∉ s.name.toList) (hquery : '?' ∉ s.name.toList)
    (hfragment : '#' ∉ s.name.toList) (hchildren : ∀ c ∈ s.children, Web c)
    (hmeta : s.metaData.Integral) (hordered : s.metaData.Ordered) :
    Survives env clock s ↔ s.messages.length < 2 ^ 31 ∧ s.children.length < 2 ^ 31 ∧
      s.metaData.Bounded (2 ^ 32 - 1) := by
  constructor
  · exact Survives.short
  · rintro ⟨hmessages, hlength, hbounded⟩
    exact survives_of_short hcast hbase hslash hquery hfragment hchildren hmeta hordered
      hmessages hlength hbounded

end Survival

section Samples

/-- A uri of the service. -/
def serviceUri : String :=
  "http://rm.example:4080/rm/v1/"

theorem web_serviceUri : Web serviceUri := by
  refine ⟨{ scheme := Uri.http
            hostname := "rm.example".toList
            port := 4080
            path := "rm/v1/".toList }, rfl, Or.inl rfl, ?_, rfl, ?_, rfl, rfl, ?_⟩
  · decide
  · decide
  · unfold Uri.NoDots
    decide

/-- A child that runs on the same host. -/
def internalChild : String :=
  "http://localhost:4080/transient//status/7"

theorem web_internalChild : Web internalChild := by
  refine ⟨{ scheme := Uri.http
            hostname := localhost
            port := 4080
            path := "transient//status/7".toList }, rfl, Or.inl rfl, ?_, rfl, ?_, rfl, rfl, ?_⟩
  · decide
  · decide
  · unfold Uri.NoDots
    decide

/-- A status with some messages and a child. -/
def sampleStatus (messages : ℕ) : Private ℤ where
  messages := List.replicate messages "done"
  children := [internalChild]
  name := "s-1"
  operation := "create"
  metaData := .object [("tries", .array [.int 2])]
  progress := 100
  code := 0
  baseUri := serviceUri
  state := .completed
  ctime := 5
  mtime := 7

/-- A completed status with meta data and an internal child. -/
theorem survives_completed : Survives tenths (fun _ => 11) (sampleStatus 1) := by
  refine (survives_iff rfl web_serviceUri ?_ ?_ ?_ ?_ ?_ ?_).mpr ⟨?_, ?_, ?_⟩
  · decide
  · decide
  · decide
  · intro c hc
    rw [List.mem_singleton.mp hc]
    exact web_internalChild
  · simp [sampleStatus, Integral, IntegralMembers, IntegralElements, IsInt64]
  · simp [sampleStatus, Ordered, OrderedMembers, OrderedElements, Assoc.Sorted]
  · rw [sampleStatus, List.length_replicate]
    omega
  · change 1 < 2 ^ 31
    omega
  · simp [sampleStatus, Bounded, BoundedMembers, BoundedElements]

theorem sampleStatus_plain (n : ℕ) : Web (sampleStatus n).baseUri ∧
    (∀ c ∈ (sampleStatus n).children, Web c) ∧ (sampleStatus n).name = "s-1" ∧
    (sampleStatus n).metaData.Integral := by
  refine ⟨web_serviceUri, ?_, rfl, ?_⟩
  · intro c hc
    rw [List.mem_singleton.mp hc]
    exact web_internalChild
  · simp [sampleStatus, Integral, IntegralMembers, IntegralElements, IsInt64]

theorem not_survives_of_le {n : ℕ} (hn : 2 ^ 31 ≤ n) :
    ¬ Survives tenths (fun _ => 11) (sampleStatus n) := by
  intro h
  have hlength := h.short.1
  rw [sampleStatus, List.length_replicate] at hlength
  omega

/-- There is no text of a status with `2 ^ 31` messages. -/
theorem not_survives : (Web (sampleStatus (2 ^ 31)).baseUri ∧
    (∀ c ∈ (sampleStatus (2 ^ 31)).children, Web c) ∧ (sampleStatus (2 ^ 31)).name = "s-1" ∧
    (sampleStatus (2 ^ 31)).metaData.Integral) ∧
    ¬ Survives tenths (fun _ => 11) (sampleStatus (2 ^ 31)) :=
  ⟨sampleStatus_plain _, not_survives_of_le (le_refl _)⟩

end Samples

end Status

end Gearbox
