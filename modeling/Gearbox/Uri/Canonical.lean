import Gearbox.Uri.Parse

/-!
# Canonical forms

For a uri without user info, query, fragment and dot segments the canonical form is parsed
to a uri with the same canonical form. A text that continues the canonical form with two
more parts of a path has the last part as its leaf, and without the two parts the canonical
form is the one before.
-/

namespace Gearbox

open Json Refinement Texts

namespace Uri

section Paths

/-- No part of a path is a dot segment. -/
def NoDots (path : List Char) : Prop :=
  ∀ part ∈ path.splitOn '/', part ≠ ['.'] ∧ part ≠ ['.', '.']

theorem normalize_of_noDots {parts : List (List Char)}
    (h : ∀ part ∈ parts, part ≠ ['.'] ∧ part ≠ ['.', '.']) (kept : List (List Char)) :
    normalize kept parts = kept.reverse ++ parts.filter (· ≠ []) := by
  induction parts generalizing kept with
  | nil => rw [normalize, List.filter_nil, List.append_nil]
  | cons part rest ih =>
      have hrest := ih fun p hp => h p (List.mem_cons_of_mem part hp)
      have hpart := h part List.mem_cons_self
      rw [normalize]
      by_cases hempty : part = []
      · rw [if_pos (Or.inl hempty), hrest, hempty]
        rfl
      · rw [if_neg (not_or.mpr ⟨hempty, hpart.1⟩), if_neg hpart.2, hrest, List.reverse_cons,
          List.filter_cons_of_pos (by simpa using hempty), List.append_assoc]
        rfl

/-- The last character of parts that are not empty is no separator. -/
theorem getLast?_joined_ne {part : List Char} {parts : List (List Char)}
    (h : ∀ p ∈ part :: parts, p ≠ [] ∧ '/' ∉ p) :
    (part ++ joined '/' parts).getLast? ≠ some '/' := by
  induction parts generalizing part with
  | nil =>
      rw [joined, List.flatMap_nil, List.append_nil]
      intro hlast
      exact (h part List.mem_cons_self).2 (List.mem_of_getLast? hlast)
  | cons part' parts ih =>
      have hrest : ∀ p ∈ part' :: parts, p ≠ [] ∧ '/' ∉ p :=
        fun p hp => h p (List.mem_cons_of_mem part hp)
      have hne : part' ++ joined '/' parts ≠ [] := by
        intro hnil
        exact (hrest part' List.mem_cons_self).1 (List.append_eq_nil_iff.mp hnil).1
      rw [joined_cons, List.getLast?_append_of_ne_nil _ (List.cons_ne_nil _ _),
        List.getLast?_cons_of_ne_nil hne]
      exact ih hrest

/-- The parts of a canonical path: a first part and others. The path without its first
separator has the same canonical form. -/
structure Split (canonical : List Char) (part : List Char) (parts : List (List Char)) :
    Prop where
  joined_eq : canonical = joined '/' (part :: parts)
  separated : ∀ p ∈ part :: parts, '/' ∉ p
  again : canonicalizePath (part ++ joined '/' parts) = canonical

/-- Parts that are not empty, with a separator at the end or without one. -/
theorem split_joined {part : List Char} {parts : List (List Char)} (slash : Bool)
    (hparts : ∀ p ∈ part :: parts, p ≠ [] ∧ '/' ∉ p)
    (hdots : ∀ p ∈ part :: parts, p ≠ ['.'] ∧ p ≠ ['.', '.']) :
    Split (joined '/' (part :: parts) ++ if slash then ['/'] else []) part
      (parts ++ if slash then [[]] else []) := by
  have hseparated : ∀ p ∈ part :: (parts ++ if slash then [[]] else []), '/' ∉ p := by
    intro p hp
    rcases List.mem_cons.mp hp with rfl | hp
    · exact (hparts p List.mem_cons_self).2
    · rcases List.mem_append.mp hp with hp | hp
      · exact (hparts p (List.mem_cons_of_mem _ hp)).2
      · cases slash with
        | false => cases hp
        | true =>
            rw [List.mem_singleton.mp hp]
            exact List.not_mem_nil
  have hdots' : ∀ p ∈ part :: (parts ++ if slash then [[]] else []),
      p ≠ ['.'] ∧ p ≠ ['.', '.'] := by
    intro p hp
    rw [← List.cons_append] at hp
    rcases List.mem_append.mp hp with hp | hp
    · exact hdots p hp
    · cases slash with
      | false => cases hp
      | true =>
          rw [List.mem_singleton.mp hp]
          decide
  have hfilter : (part :: (parts ++ if slash then [[]] else [])).filter (· ≠ []) =
      part :: parts := by
    have hkept : (part :: parts).filter (· ≠ []) = part :: parts :=
      List.filter_eq_self.mpr fun p hp => by simpa using (hparts p hp).1
    rw [← List.cons_append, List.filter_append, hkept]
    cases slash with
    | false => exact List.append_nil _
    | true => exact List.append_nil _
  have hne : part ++ joined '/' (parts ++ if slash then [[]] else []) ≠ [] := by
    intro hnil
    exact (hparts part List.mem_cons_self).1 (List.append_eq_nil_iff.mp hnil).1
  refine ⟨?_, hseparated, ?_⟩
  · cases slash with
    | false => simp [joined]
    | true => simp [joined]
  · rw [canonicalizePath, if_neg hne, splitOn_joined hseparated, normalize_of_noDots hdots',
      hfilter, List.reverse_nil, List.nil_append]
    congr 1
    cases slash with
    | false =>
        have hlast := getLast?_joined_ne hparts
        rw [if_neg Bool.false_ne_true, List.append_nil, if_neg hlast]
        rfl
    | true =>
        have hlast : (part ++ joined '/' (parts ++ [[]])).getLast? = some '/' := by
          rw [joined_append, ← List.append_assoc]
          exact List.getLast?_concat
        rw [if_pos rfl, if_pos hlast]
        rfl

theorem split_slash : Split ['/'] [] [] where
  joined_eq := rfl
  separated := fun p hp => by
    rw [List.mem_singleton.mp hp]
    exact List.not_mem_nil
  again := rfl

/-- A canonical path is put together from parts. -/
theorem split_canonicalizePath {path : List Char} (h : NoDots path) :
    ∃ part parts, Split (canonicalizePath path) part parts := by
  by_cases hpath : path = []
  · rw [hpath]
    exact ⟨[], [], split_slash⟩
  · rw [canonicalizePath, if_neg hpath, normalize_of_noDots h, List.reverse_nil,
      List.nil_append]
    cases hparts : (path.splitOn '/').filter (· ≠ []) with
    | nil =>
        -- all parts are empty, so that the last character is a separator
        have hlast : path.getLast? = some '/' := by
          rw [List.getLast?_eq_some_getLast hpath]
          by_contra hne
          obtain ⟨part, hpart, hmem⟩ := exists_mem_splitOn (c := '/')
            (List.getLast_mem hpath) fun heq => hne (congrArg some heq)
          have hkept : part ∈ (path.splitOn '/').filter (· ≠ []) := by
            refine List.mem_filter.mpr ⟨hpart, ?_⟩
            rw [decide_eq_true_eq]
            exact List.ne_nil_of_mem hmem
          rw [hparts] at hkept
          cases hkept
        rw [if_pos hlast]
        exact ⟨[], [], split_slash⟩
    | cons part parts =>
        have hmem : ∀ p ∈ part :: parts, p ∈ path.splitOn '/' ∧ p ≠ [] := by
          intro p hp
          rw [← hparts, List.mem_filter, decide_eq_true_eq] at hp
          exact hp
        have hsplit := split_joined (path.getLast? = some '/')
          (fun p hp => ⟨(hmem p hp).2, notMem_of_mem_splitOn (hmem p hp).1⟩)
          (fun p hp => h p (hmem p hp).1)
        simp only [decide_eq_true_eq] at hsplit
        exact ⟨part, _, hsplit⟩

/-- A canonical path has no characters but the separator that the path has not. -/
theorem notMem_canonicalizePath {c : Char} {path : List Char} (hpath : NoDots path)
    (h : c ∉ path) (hc : c ≠ '/') : c ∉ canonicalizePath path := by
  rw [canonicalizePath]
  split
  · exact fun hmem => hc (List.mem_singleton.mp hmem)
  · rw [normalize_of_noDots hpath, List.reverse_nil, List.nil_append, List.mem_append, not_or]
    constructor
    · intro hmem
      obtain ⟨part, hpart, hmem⟩ := List.mem_flatMap.mp hmem
      rcases List.mem_cons.mp hmem with heq | hmem
      · exact hc heq
      · exact h (mem_of_mem_splitOn (List.mem_of_mem_filter hpart) hmem)
    · split
      · exact fun hmem => hc (List.mem_singleton.mp hmem)
      · exact List.not_mem_nil

end Paths

section Sites

/-- The host, and the port where it is not the one of the scheme. -/
def host (u : Uri) : List Char :=
  if u.port = u.defaultPort then u.hostname
  else u.hostname ++ ':' :: (toString u.port).toList

/-- The text before the path. -/
def site (u : Uri) : List Char :=
  u.scheme ++ [':', '/', '/'] ++ u.host

/-- A parsed uri with a host and without user info, query, fragment and dot segments. -/
structure Plain (u : Uri) : Prop extends Parsed u where
  hostname_ne : u.hostname ≠ []
  username_eq : u.username = []
  user : '@' ∉ u.hostname
  query_eq : u.query = []
  fragment_eq : u.fragment = []
  noDots : NoDots u.path

/-- The uri with the same host and another path. -/
def located (u : Uri) (path : List Char) : Uri where
  scheme := u.scheme
  hostname := u.hostname
  port := u.port
  path := path

variable {u : Uri}

theorem Httpx.hostport (h : u.Httpx) : u.hostport = .ok u.host := by
  rw [Uri.hostport, if_neg h.ne_file, host, defaultPort]
  rcases h with hscheme | hscheme
  · have hne : u.scheme ≠ https := by
      rw [hscheme]
      decide
    by_cases hport : u.port = 80
    · rw [if_pos ⟨hscheme, hport⟩, if_pos hscheme, if_pos hport]
      exact Httpx.getHostname (Or.inl hscheme)
    · rw [if_neg (fun h => hport h.2), if_neg (fun h => hne h.1), if_pos hscheme,
        if_neg hport, Httpx.getHostname (Or.inl hscheme), ok_bind,
        Httpx.require (Or.inl hscheme), ok_bind]
      rfl
  · have hne : u.scheme ≠ http := by
      rw [hscheme]
      decide
    by_cases hport : u.port = 443
    · rw [if_neg (fun h => hne h.1), if_pos ⟨hscheme, hport⟩, if_neg hne, if_pos hport]
      exact Httpx.getHostname (Or.inr hscheme)
    · rw [if_neg (fun h => hne h.1), if_neg (fun h => hport h.2), if_neg hne, if_neg hport,
        Httpx.getHostname (Or.inr hscheme), ok_bind, Httpx.require (Or.inr hscheme), ok_bind]
      rfl

/-- The canonical form: the text before the path, and the canonical path. -/
theorem canonical_eq (h : u.Httpx) (husername : u.username = []) (hquery : u.query = [])
    (hfragment : u.fragment = []) :
    u.canonical = .ok (u.site ++ canonicalizePath u.path) := by
  rw [canonical, authority, if_neg h.ne_file, h.hostport]
  simp only [ok_bind, husername, hquery, hfragment, if_true, pure, Except.pure, site,
    List.nil_append, List.append_nil]

theorem Plain.canonical_eq (h : u.Plain) :
    u.canonical = .ok (u.site ++ canonicalizePath u.path) :=
  Uri.canonical_eq h.httpx h.username_eq h.query_eq h.fragment_eq

theorem cutAt_scheme (h : u.Httpx) (rest : List Char) :
    cutAt [':', '/', '/'] (u.scheme ++ [':', '/', '/'] ++ rest) = some (u.scheme, rest) := by
  rcases h with h | h
  · rw [h]
    rfl
  · rw [h]
    rfl

theorem setScheme_eq (h : u.Httpx) : setScheme {} u.scheme = .ok { scheme := u.scheme } := by
  rcases h with h | h
  · rw [h]
    rfl
  · rw [h]
    rfl

theorem notMem_toString {c : Char} {n : ℤ} (hdigit : c.isDigit = false) (hminus : c ≠ '-') :
    c ∉ (toString n).toList := by
  intro hmem
  rcases isDigit_of_mem_toString hmem with h | h
  · rw [hdigit] at h
    cases h
  · exact hminus h

/-- A character that is neither in the host name nor in a port is not in the host. -/
theorem notMem_host {c : Char} (h : c ∉ u.hostname) (hcolon : c ≠ ':')
    (hdigit : c.isDigit = false) (hminus : c ≠ '-') : c ∉ u.host := by
  rw [host]
  split
  · exact h
  · rw [List.mem_append, List.mem_cons, not_or, not_or]
    exact ⟨h, hcolon, notMem_toString hdigit hminus⟩

theorem Plain.host_ne_nil (h : u.Plain) : u.host ≠ [] := by
  rw [host]
  split
  · exact h.hostname_ne
  · exact fun hnil => h.hostname_ne (List.append_eq_nil_iff.mp hnil).1

theorem Plain.host_all (h : u.Plain) : ∀ c ∈ u.host, (!endsAuthority c) = true := by
  intro c hc
  rw [Bool.not_eq_true', endsAuthority, decide_eq_false_iff_not]
  have hne : ∀ d, endsAuthority d = true → d ∉ u.hostname := by
    intro d hd hmem
    rw [(h.host d hmem).1] at hd
    cases hd
  rintro (rfl | rfl | rfl)
  · exact notMem_host (hne _ (by decide)) (by decide) (by decide) (by decide) hc
  · exact notMem_host (hne _ (by decide)) (by decide) (by decide) (by decide) hc
  · exact notMem_host (hne _ (by decide)) (by decide) (by decide) (by decide) hc

/-- What is read from the authority: the port of the scheme is not there. -/
def authorized (u : Uri) : Uri where
  scheme := u.scheme
  hostname := u.hostname
  port := if u.port = u.defaultPort then 0 else u.port

theorem Plain.parseAuthority (h : u.Plain) :
    Uri.parseAuthority { scheme := u.scheme } u.host = .ok u.authorized := by
  have hscheme : Httpx { scheme := u.scheme } := h.httpx
  have hhost : Httpx { scheme := u.scheme, hostname := u.hostname } := h.httpx
  have huser : '@' ∉ u.host := notMem_host h.user (by decide) (by decide) (by decide)
  have hcolon : ':' ∉ u.hostname := fun hmem => (h.host ':' hmem).2.1 rfl
  have hlower : toLower u.hostname = u.hostname :=
    toLower_eq_self fun c hc => (h.host c hc).2.2
  rw [Uri.parseAuthority, if_neg h.host_ne_nil, parseUserInfo, cut_of_notMem huser]
  dsimp only
  rw [pure_bind, host, authorized]
  dsimp only
  by_cases hport : u.port = u.defaultPort
  · rw [if_pos hport, if_pos hport, cut_of_notMem hcolon]
    dsimp only
    rw [hscheme.setHostname, hlower]
  · rw [if_neg hport, if_neg hport, cut_append hcolon]
    dsimp only
    rw [hscheme.setHostname, hlower, ok_bind, hhost.setPort, atoi_toString h.port_int]

theorem Httpx.parseRest_eq (h : u.Httpx) {path : List Char} (hfragment : '#' ∉ path)
    (hquery : '?' ∉ path) :
    u.parseRest path = .ok { u with
      port := if u.port = 0 then u.defaultPort else u.port
      path := path } := by
  have hsuffix : parseSuffix '#' Uri.setFragment u path = .ok (u, path) := by
    rw [parseSuffix, cut_of_notMem hfragment]
    rfl
  have hsuffix' : parseSuffix '?' Uri.setQuery u path = .ok (u, path) := by
    rw [parseSuffix, cut_of_notMem hquery]
    rfl
  rw [Uri.parseRest, hsuffix, ok_bind]
  dsimp only
  rw [hsuffix', ok_bind]
  dsimp only
  rw [h.parsePort, ok_bind]
  rfl

theorem Plain.parseRest (h : u.Plain) {path : List Char} (hfragment : '#' ∉ path)
    (hquery : '?' ∉ path) : u.authorized.parseRest path = .ok (u.located path) := by
  have hhttpx : u.authorized.Httpx := h.httpx
  have hport : (if u.authorized.port = 0 then u.authorized.defaultPort
      else u.authorized.port) = u.port := by
    by_cases hdefault : u.port = u.defaultPort
    · have hzero : u.authorized.port = 0 := if_pos hdefault
      rw [if_pos hzero]
      exact hdefault.symm
    · have hsame : u.authorized.port = u.port := if_neg hdefault
      rw [hsame, if_neg h.port_ne]
  rw [hhttpx.parseRest_eq hfragment hquery, hport]
  rfl

/-- A text that continues the site with a path is parsed to the uri with this path. -/
theorem Plain.parse_site (h : u.Plain) {path : List Char} (hfragment : '#' ∉ path)
    (hquery : '?' ∉ path) : parse (u.site ++ '/' :: path) = .ok (u.located path) := by
  have htake : (u.host ++ '/' :: path).takeWhile (fun c => !endsAuthority c) = u.host := by
    rw [List.takeWhile_append_of_pos h.host_all]
    exact List.append_nil u.host
  have hdrop : (u.host ++ '/' :: path).dropWhile (fun c => !endsAuthority c) = '/' :: path := by
    rw [List.dropWhile_append_of_pos h.host_all]
    rfl
  rw [site, List.append_assoc, parse, cutAt_scheme h.httpx]
  dsimp only
  rw [setScheme_eq h.httpx, ok_bind, if_neg h.httpx.ne_file, htake, hdrop, h.parseAuthority,
    ok_bind, List.tail_cons, h.parseRest hfragment hquery]

theorem Plain.located_canonical (h : u.Plain) (path : List Char) :
    (u.located path).canonical = .ok (u.site ++ canonicalizePath path) :=
  Uri.canonical_eq h.httpx rfl rfl rfl

/-- The canonical path, its parts, and the path that is parsed from it. -/
theorem Plain.split (h : u.Plain) : ∃ part parts, Split (canonicalizePath u.path) part parts ∧
    '#' ∉ part ++ joined '/' parts ∧ '?' ∉ part ++ joined '/' parts := by
  obtain ⟨part, parts, hsplit⟩ := split_canonicalizePath h.noDots
  have hsub : ∀ c, c ∉ u.path → c ≠ '/' → c ∉ part ++ joined '/' parts := by
    intro c hc hne hmem
    refine notMem_canonicalizePath h.noDots hc hne ?_
    rw [hsplit.joined_eq, joined_cons]
    exact List.mem_cons_of_mem '/' hmem
  exact ⟨part, parts, hsplit, hsub '#' h.fragment (by decide), hsub '?' h.query (by decide)⟩

/-- The canonical form of a uri is parsed to a uri with the same canonical form. -/
theorem Plain.parse_canonical (h : u.Plain) : ∃ path,
    parse (u.site ++ canonicalizePath u.path) = .ok (u.located path) ∧
      (u.located path).canonical = .ok (u.site ++ canonicalizePath u.path) := by
  obtain ⟨part, parts, hsplit, hfragment, hquery⟩ := h.split
  refine ⟨part ++ joined '/' parts, ?_, ?_⟩
  · rw [hsplit.joined_eq, joined_cons, h.parse_site hfragment hquery]
  · rw [h.located_canonical, hsplit.again]

/-- A path that ends with two more parts: the last one is the leaf, and without the two
parts the canonical form is the one before. -/
theorem Plain.parse_leaf (h : u.Plain) {a b : List Char} (ha : '/' ∉ a) (hb : '/' ∉ b)
    (hfragment : '#' ∉ a ++ b) (hquery : '?' ∉ a ++ b) : ∃ v,
    parse (u.site ++ canonicalizePath u.path ++ '/' :: a ++ '/' :: b) = .ok v ∧
      v.leaf = b ∧
      v.pathPop.pathPop.canonical = .ok (u.site ++ canonicalizePath u.path) := by
  obtain ⟨part, parts, hsplit, hfragment', hquery'⟩ := h.split
  have hpath : ∀ c, c ∉ part ++ joined '/' parts → c ∉ a ++ b → c ≠ '/' →
      c ∉ part ++ joined '/' parts ++ '/' :: a ++ '/' :: b := by
    intro c hc hab hne hmem
    simp only [List.mem_append, List.mem_cons] at hmem hc hab
    tauto
  refine ⟨u.located (part ++ joined '/' parts ++ '/' :: a ++ '/' :: b), ?_, ?_, ?_⟩
  · rw [hsplit.joined_eq, joined_cons, ← h.parse_site (hpath '#' hfragment' hfragment (by decide))
      (hpath '?' hquery' hquery (by decide))]
    simp
  · rw [leaf, located, afterLast_append hb]
  · have hpop : (u.located (part ++ joined '/' parts ++ '/' :: a ++ '/' :: b)).pathPop =
        u.located (part ++ joined '/' parts ++ '/' :: a) := by
      rw [pathPop, if_pos (by simp [located]), located, beforeLast_append hb]
      rfl
    have hpop' : (u.located (part ++ joined '/' parts ++ '/' :: a)).pathPop =
        u.located (part ++ joined '/' parts) := by
      rw [pathPop, if_pos (by simp [located]), located, beforeLast_append ha]
      rfl
    rw [hpop, hpop', h.located_canonical, hsplit.again]

end Sites

end Uri

end Gearbox
