import Gearbox.Uri.Path

/-!
# The components of a uri

A text is put together from a scheme, a host, a port, a path, a query and a fragment. The
authority ends at the first of three separators, and the parser drops this separator, whatever it
is. The path, the query and the fragment are then cut from what follows. So the components are
recovered if there is a path, and a query or a fragment that follows the authority is taken for
the path.
-/

namespace Gearbox

open Json Refinement Texts

namespace Uri

section Rest

/-- The fragment of the text after the authority. -/
def fragmentOf (text : List Char) : List Char :=
  (cut '#' text).elim [] Prod.snd

/-- The text before the fragment. -/
def beforeFragment (text : List Char) : List Char :=
  (cut '#' text).elim text Prod.fst

/-- The query of the text after the authority. -/
def queryOf (text : List Char) : List Char :=
  (cut '?' (beforeFragment text)).elim [] Prod.snd

/-- The path of the text after the authority. -/
def pathOf (text : List Char) : List Char :=
  (cut '?' (beforeFragment text)).elim (beforeFragment text) Prod.fst

variable {u : Uri}

/-- What is read from the text after the authority. -/
theorem Httpx.parseRest_cut (h : u.Httpx) (hquery : u.query = []) (hfragment : u.fragment = [])
    (text : List Char) :
    u.parseRest text = .ok { u with
      path := pathOf text
      query := queryOf text
      fragment := fragmentOf text
      port := if u.port = 0 then u.defaultPort else u.port } := by
  have hsuffix : parseSuffix '#' Uri.setFragment u text =
      .ok ({ u with fragment := fragmentOf text }, beforeFragment text) := by
    rw [parseSuffix, fragmentOf, beforeFragment]
    cases cut '#' text with
    | none =>
        rw [Option.elim_none, ← hfragment]
        rfl
    | some r =>
        dsimp only
        rw [h.setFragment, ok_bind]
        rfl
  have hu : Httpx { u with fragment := fragmentOf text } := h
  have hsuffix' : parseSuffix '?' Uri.setQuery { u with fragment := fragmentOf text }
      (beforeFragment text) =
        .ok ({ u with query := queryOf text, fragment := fragmentOf text }, pathOf text) := by
    rw [parseSuffix, queryOf, pathOf]
    cases cut '?' (beforeFragment text) with
    | none =>
        rw [Option.elim_none, ← hquery]
        rfl
    | some r =>
        dsimp only
        rw [hu.setQuery, ok_bind]
        rfl
  have hu' : Httpx { u with query := queryOf text, fragment := fragmentOf text } := h
  rw [Uri.parseRest, hsuffix, ok_bind]
  dsimp only
  rw [hsuffix', ok_bind]
  dsimp only
  rw [hu'.parsePort, ok_bind]
  rfl

theorem beforeFragment_of_notMem {text : List Char} (h : '#' ∉ text) :
    beforeFragment text = text := by
  rw [beforeFragment, cut_of_notMem h]
  rfl

theorem fragmentOf_of_notMem {text : List Char} (h : '#' ∉ text) : fragmentOf text = [] := by
  rw [fragmentOf, cut_of_notMem h]
  rfl

theorem beforeFragment_append {text : List Char} (h : '#' ∉ text) (fragment : List Char) :
    beforeFragment (text ++ '#' :: fragment) = text := by
  rw [beforeFragment, cut_append h]
  rfl

theorem fragmentOf_append {text : List Char} (h : '#' ∉ text) (fragment : List Char) :
    fragmentOf (text ++ '#' :: fragment) = fragment := by
  rw [fragmentOf, cut_append h]
  rfl

end Rest

section Text

/-- A suffix with the separator in front, if it is there. -/
def suffix (c : Char) (text : Option (List Char)) : List Char :=
  text.elim [] (c :: ·)

/-- The text after the authority is read as it was put together. -/
theorem cut_suffixes {path : List Char} (hpath : '?' ∉ path ∧ '#' ∉ path)
    {query fragment : Option (List Char)} (hquery : ∀ q, query = some q → '#' ∉ q) :
    pathOf (path ++ suffix '?' query ++ suffix '#' fragment) = path ∧
      queryOf (path ++ suffix '?' query ++ suffix '#' fragment) = query.getD [] ∧
      fragmentOf (path ++ suffix '?' query ++ suffix '#' fragment) = fragment.getD [] := by
  have hnone : '#' ∉ path ++ suffix '?' query := by
    rw [List.mem_append, not_or]
    refine ⟨hpath.2, ?_⟩
    cases query with
    | none => exact List.not_mem_nil
    | some q =>
        rw [suffix, Option.elim_some, List.mem_cons, not_or]
        exact ⟨by decide, hquery q rfl⟩
  have hfragment : beforeFragment (path ++ suffix '?' query ++ suffix '#' fragment) =
      path ++ suffix '?' query ∧
      fragmentOf (path ++ suffix '?' query ++ suffix '#' fragment) = fragment.getD [] := by
    cases fragment with
    | none =>
        have hempty : suffix '#' none = [] := rfl
        rw [hempty, List.append_nil]
        exact ⟨beforeFragment_of_notMem hnone, fragmentOf_of_notMem hnone⟩
    | some f => exact ⟨beforeFragment_append hnone f, fragmentOf_append hnone f⟩
  rw [pathOf, queryOf, hfragment.1]
  refine ⟨?_, ?_, hfragment.2⟩
  · cases query with
    | none =>
        rw [suffix, Option.elim_none, List.append_nil, cut_of_notMem hpath.1]
        rfl
    | some q =>
        rw [suffix, Option.elim_some, cut_append hpath.1]
        rfl
  · cases query with
    | none =>
        rw [suffix, Option.elim_none, List.append_nil, cut_of_notMem hpath.1]
        rfl
    | some q =>
        rw [suffix, Option.elim_some, cut_append hpath.1]
        rfl

end Text

section Authority

variable {u : Uri}

/-- A text that is empty or starts with a separator. -/
def Closed (text : List Char) : Prop :=
  ∀ c ∈ text.head?, endsAuthority c = true

theorem closed_suffixes {path : List Char} (hpath : path = [] ∨ path.head? = some '/')
    (query fragment : Option (List Char)) :
    Closed (path ++ suffix '?' query ++ suffix '#' fragment) := by
  intro d hd
  rcases hpath with hpath | hpath
  · rw [hpath, List.nil_append] at hd
    cases query with
    | some q =>
        cases hd
        rfl
    | none =>
        cases fragment with
        | some f =>
            cases hd
            rfl
        | none => cases hd
  · obtain ⟨path, rfl⟩ := List.head?_eq_some_iff.mp hpath
    cases hd
    rfl

/-- A host, and a port if there is one. -/
def hostText (host : List Char) (port : Option ℤ) : List Char :=
  host ++ suffix ':' (port.map fun port => (toString port).toList)

theorem notMem_hostText {d : Char} {host : List Char} {port : Option ℤ} (h : d ∉ host)
    (hcolon : d ≠ ':') (hdigit : d.isDigit = false) (hminus : d ≠ '-') :
    d ∉ hostText host port := by
  rw [hostText, List.mem_append, not_or]
  refine ⟨h, ?_⟩
  cases port with
  | none => exact List.not_mem_nil
  | some n =>
      intro hmem
      rcases List.mem_cons.mp hmem with heq | hmem
      · exact hcolon heq
      · exact notMem_toString hdigit hminus hmem

theorem endsAuthority_eq_false {d : Char} :
    endsAuthority d = false ↔ d ≠ '/' ∧ d ≠ '?' ∧ d ≠ '#' := by
  rw [endsAuthority, decide_eq_false_iff_not, not_or, not_or]

theorem endsAuthority_hostText {host : List Char} (h : ∀ d ∈ host, endsAuthority d = false)
    (port : Option ℤ) : ∀ d ∈ hostText host port, endsAuthority d = false := by
  have hnotMem : ∀ d, endsAuthority d = true → d ∉ host := by
    intro d hd hmem
    rw [h d hmem] at hd
    cases hd
  intro d hd
  rw [endsAuthority_eq_false]
  refine ⟨?_, ?_, ?_⟩
  · rintro rfl
    exact notMem_hostText (hnotMem _ rfl) (by decide) (by decide) (by decide) hd
  · rintro rfl
    exact notMem_hostText (hnotMem _ rfl) (by decide) (by decide) (by decide) hd
  · rintro rfl
    exact notMem_hostText (hnotMem _ rfl) (by decide) (by decide) (by decide) hd

/-- The host and the port, as the part of `parse_authority` after the user info reads them. -/
theorem Httpx.parseHost (h : u.Httpx) {host : List Char} (hcolon : ':' ∉ host)
    {port : Option ℤ} (hport : ∀ n, port = some n → toInt32 n = n) :
    (match cut ':' (hostText host port) with
      | some (host, port) => do
        let u ← u.setHostname host
        u.setPort (atoi port)
      | none => u.setHostname (hostText host port)) =
      .ok { u with hostname := toLower host, port := port.getD u.port } := by
  have hhost : Httpx { u with hostname := toLower host } := h
  cases port with
  | none =>
      have htext : hostText host none = host := List.append_nil host
      rw [htext, cut_of_notMem hcolon]
      dsimp only
      rw [h.setHostname]
      rfl
  | some n =>
      have htext : hostText host (some n) = host ++ ':' :: (toString n).toList := rfl
      rw [htext, cut_append hcolon]
      dsimp only
      rw [h.setHostname, ok_bind, hhost.setPort, atoi_toString (hport n rfl)]
      rfl

/-- An authority without user info. -/
theorem Httpx.parseAuthority_host (h : u.Httpx) {host : List Char} {port : Option ℤ}
    (hne : hostText host port ≠ []) (hat : '@' ∉ host) (hcolon : ':' ∉ host)
    (hport : ∀ n, port = some n → toInt32 n = n) :
    u.parseAuthority (hostText host port) =
      .ok { u with hostname := toLower host, port := port.getD u.port } := by
  have huser : '@' ∉ hostText host port :=
    notMem_hostText hat (by decide) (by decide) (by decide)
  rw [Uri.parseAuthority, if_neg hne, Uri.parseUserInfo, cut_of_notMem huser]
  exact h.parseHost hcolon hport

section Ends

variable {authority text : List Char} (hauthority : ∀ c ∈ authority, endsAuthority c = false)

include hauthority

theorem all_not_endsAuthority : ∀ c ∈ authority, (!endsAuthority c) = true := by
  intro c hc
  rw [hauthority c hc]
  rfl

theorem takeWhile_authority (htext : Closed text) :
    (authority ++ text).takeWhile (fun c => !endsAuthority c) = authority := by
  rw [List.takeWhile_append_of_pos (all_not_endsAuthority hauthority)]
  cases text with
  | nil => exact List.append_nil authority
  | cons c text =>
      rw [List.takeWhile_cons_of_neg (by simp [htext c rfl]), List.append_nil]

theorem dropWhile_authority (htext : Closed text) :
    (authority ++ text).dropWhile (fun c => !endsAuthority c) = text := by
  rw [List.dropWhile_append_of_pos (all_not_endsAuthority hauthority)]
  cases text with
  | nil => rfl
  | cons c text => exact List.dropWhile_cons_of_neg (by simp [htext c rfl])

/-- The authority ends at the first separator, which is dropped. -/
theorem parse_authority (h : u.Httpx) (htext : Closed text) :
    parse (u.scheme ++ [':', '/', '/'] ++ (authority ++ text)) =
      (parseAuthority { scheme := u.scheme } authority >>= fun v => v.parseRest text.tail) := by
  rw [parse, cutAt_scheme h]
  dsimp only
  rw [setScheme_eq h, ok_bind, if_neg h.ne_file, takeWhile_authority hauthority htext,
    dropWhile_authority hauthority htext]

end Ends

end Authority

section Components

/-- The components that a text is put together from. -/
structure Components where
  scheme : List Char
  host : List Char
  port : Option ℕ
  path : List Char
  query : Option (List Char)
  fragment : Option (List Char)

namespace Components

/-- The port, as an `int` of the source. -/
def portInt (c : Components) : Option ℤ :=
  c.port.map Nat.cast

/-- The host, and the port if there is one. -/
def authority (c : Components) : List Char :=
  hostText c.host c.portInt

/-- The text of the components. -/
def text (c : Components) : List Char :=
  c.scheme ++ [':', '/', '/'] ++
    (c.authority ++ (c.path ++ suffix '?' c.query ++ suffix '#' c.fragment))

/-- The components are separated by the separators between them. -/
structure WellFormed (c : Components) : Prop where
  scheme : c.scheme = http ∨ c.scheme = https
  host_ne : c.host ≠ []
  host : ∀ d ∈ ['/', '?', '#', '@', ':'], d ∉ c.host
  port : ∀ port, c.port = some port → 1 ≤ port ∧ port ≤ 65535
  path : c.path = [] ∨ c.path.head? = some '/'
  path_query : '?' ∉ c.path ∧ '#' ∉ c.path
  query : ∀ q, c.query = some q → '#' ∉ q

/-- The port of the scheme. -/
def schemePort (c : Components) : ℤ :=
  if c.scheme = http then 80 else 443

/-- The uri has the components. -/
structure Recovers (c : Components) (u : Uri) : Prop where
  scheme : u.scheme = c.scheme
  hostname : u.hostname = toLower c.host
  port : u.port = c.portInt.getD c.schemePort
  path : u.path = c.path.tail
  query : u.query = c.query.getD []
  fragment : u.fragment = c.fragment.getD []

variable {c : Components}

/-- The uri of a scheme without anything else. -/
def base (c : Components) : Uri :=
  { scheme := c.scheme }

theorem WellFormed.httpx (h : c.WellFormed) : c.base.Httpx :=
  h.scheme

theorem WellFormed.endsAuthority_host (h : c.WellFormed) :
    ∀ d ∈ c.host, endsAuthority d = false := by
  intro d hd
  rw [endsAuthority_eq_false]
  refine ⟨?_, ?_, ?_⟩
  · rintro rfl
    exact h.host '/' (by decide) hd
  · rintro rfl
    exact h.host '?' (by decide) hd
  · rintro rfl
    exact h.host '#' (by decide) hd

theorem WellFormed.parseAuthority (h : c.WellFormed) :
    Uri.parseAuthority c.base c.authority = .ok { c.base with
      hostname := toLower c.host
      port := c.portInt.getD 0 } := by
  have hne : c.authority ≠ [] := fun hnil => h.host_ne (List.append_eq_nil_iff.mp hnil).1
  have hport : ∀ n, c.portInt = some n → toInt32 n = n := by
    intro n hn
    obtain ⟨port, hport, rfl⟩ := Option.map_eq_some_iff.mp hn
    have hrange := h.port port hport
    rw [toInt32]
    exact Int.bmod_eq_of_le (by omega) (by omega)
  exact h.httpx.parseAuthority_host hne (h.host '@' (by decide)) (h.host ':' (by decide)) hport

/-- The text after the authority. -/
def rest (c : Components) : List Char :=
  c.path ++ suffix '?' c.query ++ suffix '#' c.fragment

theorem WellFormed.closed_rest (h : c.WellFormed) : Closed c.rest :=
  closed_suffixes h.path c.query c.fragment

/-- What the parser makes of the text. -/
theorem WellFormed.parse_text (h : c.WellFormed) : parse c.text = .ok { c.base with
    hostname := toLower c.host
    port := c.portInt.getD c.schemePort
    path := pathOf c.rest.tail
    query := queryOf c.rest.tail
    fragment := fragmentOf c.rest.tail } := by
  have hhttpx : Httpx { c.base with
      hostname := toLower c.host
      port := c.portInt.getD 0 } := h.httpx
  have hport : (if c.portInt.getD 0 = 0 then c.schemePort else c.portInt.getD 0) =
      c.portInt.getD c.schemePort := by
    rw [portInt]
    cases hport : c.port with
    | none => rfl
    | some port =>
        have hrange := h.port port hport
        have hne : ((port : ℕ) : ℤ) ≠ 0 := by omega
        exact if_neg hne
  have hall := endsAuthority_hostText h.endsAuthority_host c.portInt
  change parse (c.base.scheme ++ [':', '/', '/'] ++ (hostText c.host c.portInt ++ c.rest)) = _
  rw [parse_authority hall h.httpx h.closed_rest]
  change (Uri.parseAuthority c.base c.authority >>= _) = _
  rw [h.parseAuthority, ok_bind, hhttpx.parseRest_cut rfl rfl]
  congr 1
  exact Uri.mk.injEq .. |>.mpr ⟨rfl, rfl, rfl, rfl, rfl, rfl, rfl, hport⟩

/-- A path that is there starts after the separator that is dropped. -/
theorem WellFormed.rest_tail (h : c.WellFormed) {d : Char} {path : List Char}
    (hpath : c.path = d :: path) :
    pathOf c.rest.tail = path ∧ queryOf c.rest.tail = c.query.getD [] ∧
      fragmentOf c.rest.tail = c.fragment.getD [] := by
  have hrest : c.rest.tail = path ++ suffix '?' c.query ++ suffix '#' c.fragment := by
    rw [rest, hpath]
    rfl
  have hpath' : '?' ∉ path ∧ '#' ∉ path := by
    have hboth := h.path_query
    rw [hpath] at hboth
    exact ⟨fun hmem => hboth.1 (List.mem_cons_of_mem d hmem),
      fun hmem => hboth.2 (List.mem_cons_of_mem d hmem)⟩
  rw [hrest]
  exact cut_suffixes hpath' h.query

theorem rest_tail_query {query : List Char} (hpath : c.path = [])
    (hquery : c.query = some query) : c.rest.tail = query ++ suffix '#' c.fragment := by
  rw [rest, hpath, hquery]
  rfl

theorem rest_tail_fragment {fragment : List Char} (hpath : c.path = []) (hquery : c.query = none)
    (hfragment : c.fragment = some fragment) : c.rest.tail = fragment := by
  rw [rest, hpath, hquery, hfragment]
  rfl

/-- Without a path, a query is taken for the path. -/
theorem eq_nil_of_queryOf {query : List Char} (hquery : '#' ∉ query)
    (fragment : Option (List Char)) (hpath : pathOf (query ++ suffix '#' fragment) = [])
    (h : queryOf (query ++ suffix '#' fragment) = query) : query = [] := by
  have hbefore : beforeFragment (query ++ suffix '#' fragment) = query := by
    cases fragment with
    | none =>
        rw [suffix, Option.elim_none, List.append_nil]
        exact beforeFragment_of_notMem hquery
    | some f => exact beforeFragment_append hquery f
  rw [pathOf, hbefore] at hpath
  rw [queryOf, hbefore] at h
  cases hcut : cut '?' query with
  | none =>
      rw [hcut] at hpath
      exact hpath
  | some r =>
      -- the query that is found is shorter than the one that was put in
      rw [hcut, Option.elim_some] at h
      have hlength := congrArg List.length (eq_of_cut hcut)
      rw [h, List.length_append, List.length_cons] at hlength
      omega

/-- Without a path and a query, a fragment is taken for the path. -/
theorem eq_nil_of_fragmentOf {fragment : List Char} (h : fragmentOf fragment = fragment) :
    fragment = [] := by
  rw [fragmentOf] at h
  cases hcut : cut '#' fragment with
  | none =>
      rw [hcut] at h
      exact h.symm
  | some r =>
      rw [hcut, Option.elim_some] at h
      have hlength := congrArg List.length (eq_of_cut hcut)
      rw [h, List.length_append, List.length_cons] at hlength
      omega

/-- Nothing that is read later follows the authority directly. -/
def Separated (c : Components) : Prop :=
  c.path ≠ [] ∨ c.query = some [] ∨
    c.query = none ∧ (c.fragment = none ∨ c.fragment = some [])

theorem WellFormed.separated (h : c.WellFormed) (hpath : pathOf c.rest.tail = c.path.tail)
    (hquery : queryOf c.rest.tail = c.query.getD [])
    (hfragment : fragmentOf c.rest.tail = c.fragment.getD []) : c.Separated := by
  by_cases hempty : c.path = []
  · cases hq : c.query with
    | some q =>
        rw [rest_tail_query hempty hq, hempty] at hpath
        rw [rest_tail_query hempty hq, hq] at hquery
        have hnil := eq_nil_of_queryOf (h.query q hq) c.fragment hpath hquery
        exact .inr (.inl (by rw [hq, hnil]))
    | none =>
        cases hf : c.fragment with
        | none => exact .inr (.inr ⟨hq, .inl hf⟩)
        | some f =>
            rw [rest_tail_fragment hempty hq hf, hf] at hfragment
            have hnil := eq_nil_of_fragmentOf hfragment
            exact .inr (.inr ⟨hq, .inr (by rw [hf, hnil])⟩)
  · exact .inl hempty

theorem WellFormed.rest_tail_of_separated (h : c.WellFormed) (hc : c.Separated) :
    pathOf c.rest.tail = c.path.tail ∧ queryOf c.rest.tail = c.query.getD [] ∧
      fragmentOf c.rest.tail = c.fragment.getD [] := by
  cases hpath : c.path with
  | cons d path => exact h.rest_tail hpath
  | nil =>
      rcases hc with hc | hquery | ⟨hquery, hfragment | hfragment⟩
      · exact absurd hpath hc
      · rw [rest_tail_query hpath hquery, hquery]
        have hnone : ∀ q, (none : Option (List Char)) = some q → '#' ∉ q := nofun
        exact cut_suffixes ⟨List.not_mem_nil, List.not_mem_nil⟩ hnone
      · have hrest : c.rest.tail = [] := by
          rw [rest, hpath, hquery, hfragment]
          rfl
        rw [hrest, hquery, hfragment]
        exact ⟨rfl, rfl, rfl⟩
      · rw [rest_tail_fragment hpath hquery hfragment, hquery, hfragment]
        exact ⟨rfl, rfl, rfl⟩

/-- The parser recovers the components if and only if nothing is taken for the path. -/
theorem recovers_iff (h : c.WellFormed) :
    (∃ u, parse c.text = .ok u ∧ c.Recovers u) ↔ c.Separated := by
  rw [h.parse_text]
  constructor
  · rintro ⟨u, hu, hr⟩
    cases hu
    exact h.separated hr.path hr.query hr.fragment
  · intro hc
    obtain ⟨hpath, hquery, hfragment⟩ := h.rest_tail_of_separated hc
    exact ⟨_, rfl, rfl, rfl, rfl, hpath, hquery, hfragment⟩

/-- The components of `http://h:8080/p?q#f`. -/
def sample : Components where
  scheme := http
  host := ['h']
  port := some 8080
  path := ['/', 'p']
  query := some ['q']
  fragment := some ['f']

theorem wellFormed_sample : sample.WellFormed where
  scheme := .inl rfl
  host_ne := by decide
  host := List.forall_iff_forall_mem.mp (by decide)
  port := by
    intro port hport
    cases hport
    decide
  path := .inr rfl
  path_query := by decide
  query := by
    intro q hq
    cases hq
    decide

theorem recovers_sample : ∃ u, parse sample.text = .ok u ∧ sample.Recovers u :=
  (recovers_iff wellFormed_sample).mpr (.inl (by decide))

/-- The components of `http://h?q`. -/
def bareQuery : Components where
  scheme := http
  host := ['h']
  port := none
  path := []
  query := some ['q']
  fragment := none

theorem wellFormed_bareQuery : bareQuery.WellFormed where
  scheme := .inl rfl
  host_ne := by decide
  host := List.forall_iff_forall_mem.mp (by decide)
  port := nofun
  path := .inl rfl
  path_query := by decide
  query := by
    intro q hq
    cases hq
    decide

/-- The query of `http://h?q` is read as the path `q`. -/
theorem not_recovers :
    ¬ ∀ c : Components, c.WellFormed → ∃ u, parse c.text = .ok u ∧ c.Recovers u := by
  intro hall
  obtain ⟨u, hu, hr⟩ := hall bareQuery wellFormed_bareQuery
  rw [wellFormed_bareQuery.parse_text] at hu
  cases hu
  have hpath : ['q'] = ([] : List Char) := hr.path
  cases hpath

end Components

end Components

end Uri

end Gearbox
