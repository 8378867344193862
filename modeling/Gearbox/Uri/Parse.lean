import Gearbox.Json.Numbers
import Gearbox.Texts.Cut

/-!
# Uris

A `Uri` is parsed from a text and written in its canonical form. A uri of the scheme
`file` has a path only, and the accessors of its other parts throw.

The first separator after the authority is dropped, so that the path of a parsed uri has no
`/` in front. The canonical path has one, no empty parts and no dot segments, and it ends
with `/` where the path does. The port is left out where it is the one of the scheme.
-/

namespace Gearbox

open Json Refinement Texts

/-- `Uri::Private` without the text that was parsed. -/
structure Uri where
  scheme : List Char := []
  username : List Char := []
  password : List Char := []
  hostname : List Char := []
  path : List Char := []
  query : List Char := []
  fragment : List Char := []
  port : ℤ := 0
  deriving DecidableEq, Repr

namespace Uri

/-- A `UriError`, whose text is cut after 511 bytes. -/
def uriError (message : String) : Failure :=
  .std ("Uri Error: " ++ message)

def http : List Char :=
  ['h', 't', 't', 'p']

def https : List Char :=
  ['h', 't', 't', 'p', 's']

def file : List Char :=
  ['f', 'i', 'l', 'e']

/-- `boost::to_lower` -/
def toLower (text : List Char) : List Char :=
  text.map Char.toLower

/-- `REQUIRE_HTTPX` -/
def requireHttpx (u : Uri) (name : String) : Except Failure Unit :=
  if u.scheme ≠ http ∧ u.scheme ≠ https then
    throw (uriError ("attribute '" ++ name ++ "' unsupported by '" ++
      String.ofList u.scheme ++ "' URIs"))
  else
    return ()

/-- `Uri::scheme` -/
def setScheme (u : Uri) (scheme : List Char) : Except Failure Uri :=
  if toLower scheme ≠ file ∧ toLower scheme ≠ http ∧ toLower scheme ≠ https then
    throw (uriError ("Unsupported uri scheme '" ++ String.ofList (toLower scheme) ++ "'."))
  else
    return { u with scheme := toLower scheme }

/-- `Uri::username` -/
def setUsername (u : Uri) (username : List Char) : Except Failure Uri := do
  u.requireHttpx "username"
  return { u with username := username }

/-- `Uri::password` -/
def setPassword (u : Uri) (password : List Char) : Except Failure Uri := do
  u.requireHttpx "password"
  return { u with password := password }

/-- `Uri::hostname` -/
def getHostname (u : Uri) : Except Failure (List Char) := do
  u.requireHttpx "hostname"
  return u.hostname

/-- `Uri::hostname` -/
def setHostname (u : Uri) (hostname : List Char) : Except Failure Uri := do
  u.requireHttpx "hostname"
  return { u with hostname := toLower hostname }

/-- `Uri::port` -/
def setPort (u : Uri) (port : ℤ) : Except Failure Uri := do
  u.requireHttpx "port"
  return { u with port := port }

/-- `Uri::query` -/
def setQuery (u : Uri) (query : List Char) : Except Failure Uri := do
  u.requireHttpx "query"
  return { u with query := query }

/-- `Uri::fragment` -/
def setFragment (u : Uri) (fragment : List Char) : Except Failure Uri := do
  u.requireHttpx "fragment"
  return { u with fragment := fragment }

/-- `isspace` -/
def isSpace (c : Char) : Bool :=
  c = ' ' ∨ 9 ≤ c.toNat ∧ c.toNat ≤ 13

/-- `atoi`: the digits after white space and a sign, as a `long` and then as an `int`. -/
def atoi (text : List Char) : ℤ :=
  let (negative, digits) := unsigned (text.dropWhile isSpace)
  let n : ℤ := Nat.ofDigitChars 10 (digits.takeWhile Char.isDigit) 0
  toInt32 (max (-2 ^ 63) (min (if negative then -n else n) (2 ^ 63 - 1)))

/-- The part of `parse_authority` before the host: the user info, and the text after it. -/
def parseUserInfo (u : Uri) (authority : List Char) : Except Failure (Uri × List Char) :=
  match cut '@' authority with
  | some (user, nl) => do
    let u ← u.setUsername user
    match cut ':' user with
    | some (name, password) => do
      let u ← u.setPassword password
      let u ← u.setUsername name
      return (u, nl)
    | none => return (u, nl)
  | none => return (u, authority)

/-- `Uri::parse_authority` -/
def parseAuthority (u : Uri) (authority : List Char) : Except Failure Uri :=
  if authority = [] then
    throw (uriError ("Authority must be present for '" ++ String.ofList u.scheme ++ "' uris."))
  else do
    let (u, nl) ← u.parseUserInfo authority
    match cut ':' nl with
    | some (host, port) => do
      let u ← u.setHostname host
      u.setPort (atoi port)
    | none => u.setHostname nl

/-- A character that ends the authority. -/
def endsAuthority (c : Char) : Bool :=
  c = '/' ∨ c = '?' ∨ c = '#'

/-- Sets a part of the uri to what follows a character, and returns what is before it. -/
def parseSuffix (c : Char) (set : Uri → List Char → Except Failure Uri) (u : Uri)
    (uri : List Char) : Except Failure (Uri × List Char) :=
  match cut c uri with
  | some (before, after) => do return (← set u after, before)
  | none => return (u, uri)

/-- The port of the scheme, if there is no other. -/
def parsePort (u : Uri) : Except Failure Uri :=
  if u.port = 0 then
    if u.scheme = http then u.setPort 80
    else if u.scheme = https then u.setPort 443
    else return u
  else
    return u

/-- The part of `parse_uristr` after the authority, for the text `uri` after it. -/
def parseRest (u : Uri) (uri : List Char) : Except Failure Uri := do
  let (u, uri) ← parseSuffix '#' setFragment u uri
  let (u, uri) ← parseSuffix '?' setQuery u uri
  let u ← u.parsePort
  return { u with path := uri }

/-- `Uri::parse_uristr` -/
def parse (uristr : List Char) : Except Failure Uri :=
  match cutAt [':', '/', '/'] uristr with
  | none => throw (uriError
      ("The string '" ++ String.ofList uristr ++ "' is not parseable as a uri."))
  | some (scheme, uri) => do
    let u ← setScheme {} scheme
    if u.scheme = file then
      return { u with path := uri }
    else
      let u ← u.parseAuthority (uri.takeWhile fun c => !endsAuthority c)
      u.parseRest (uri.dropWhile fun c => !endsAuthority c).tail

/-- The loop of `canonicalize_path` over the parts; `kept` are those before the iterator,
the last one first. -/
def normalize : List (List Char) → List (List Char) → List (List Char)
  | kept, [] => kept.reverse
  | kept, part :: rest =>
    if part = [] ∨ part = ['.'] then normalize kept rest
    else if part = ['.', '.'] then normalize kept.tail rest
    else normalize (part :: kept) rest

/-- `Uri::canonicalize_path` -/
def canonicalizePath (path : List Char) : List Char :=
  if path = [] then
    ['/']
  else
    joined '/' (normalize [] (path.splitOn '/')) ++
      if path.getLast? = some '/' then ['/'] else []

/-- `Uri::path_pop` -/
def pathPop (u : Uri) : Uri :=
  if '/' ∈ u.path then { u with path := beforeLast '/' u.path } else u

/-- `Uri::leaf` -/
def leaf (u : Uri) : List Char :=
  afterLast '/' u.path

/-- `Uri::hostport` -/
def hostport (u : Uri) : Except Failure (List Char) :=
  if u.scheme = file then return []
  else if u.scheme = http ∧ u.port = 80 then u.getHostname
  else if u.scheme = https ∧ u.port = 443 then u.getHostname
  else do
    let hostname ← u.getHostname
    u.requireHttpx "port"
    return hostname ++ ':' :: (toString u.port).toList

/-- `Uri::authority` -/
def authority (u : Uri) : Except Failure (List Char) :=
  if u.scheme = file then return []
  else do
    let userInfo :=
      if u.username = [] then []
      else u.username ++ (if u.password = [] then [] else ':' :: u.password) ++ ['@']
    return userInfo ++ (← u.hostport)

/-- `Uri::canonical` -/
def canonical (u : Uri) : Except Failure (List Char) := do
  let authority ← u.authority
  return u.scheme ++ [':', '/', '/'] ++ authority ++ canonicalizePath u.path ++
    (if u.query = [] then [] else '?' :: u.query) ++
    (if u.fragment = [] then [] else '#' :: u.fragment)

section Lower

theorem toNat_toLower (c : Char) : c.toLower.toNat =
    if 65 ≤ c.toNat ∧ c.toNat ≤ 90 then c.toNat + 32 else c.toNat := by
  have hupper : (c.val ≥ 'A'.val ∧ c.val ≤ 'Z'.val) ↔ 65 ≤ c.toNat ∧ c.toNat ≤ 90 :=
    and_congr UInt32.le_iff_toNat_le UInt32.le_iff_toNat_le
  by_cases h : c.val ≥ 'A'.val ∧ c.val ≤ 'Z'.val
  · have hlower : c.toLower.val = c.val + ('a'.val - 'A'.val) := congrArg Char.val (dif_pos h)
    obtain ⟨hlow, hhigh⟩ := hupper.mp h
    rw [if_pos (hupper.mp h), Char.toNat, hlower]
    change (c.val.toNat + 32) % 2 ^ 32 = c.toNat + 32
    exact Nat.mod_eq_of_lt (by change c.toNat + 32 < 2 ^ 32; omega)
  · have hsame : c.toLower = c := dif_neg h
    rw [hsame, if_neg fun h' => h (hupper.mpr h')]

/-- A character that is no letter comes from itself only. -/
theorem eq_of_toLower_eq {c d : Char} (h : c.toLower = d) (hd : d.toNat < 97) : c = d := by
  have hnat := toNat_toLower c
  rw [h] at hnat
  apply Char.toNat_inj.mp
  split at hnat
  · omega
  · exact hnat.symm

theorem toLower_toLower (c : Char) : c.toLower.toLower = c.toLower := by
  apply Char.toNat_inj.mp
  rw [toNat_toLower c.toLower, toNat_toLower c]
  split
  · rw [if_neg (by omega)]
  · rfl

theorem toLower_eq_self {text : List Char} (h : ∀ c ∈ text, c.toLower = c) :
    toLower text = text := by
  conv_rhs => rw [← List.map_id text]
  exact List.map_congr_left h

end Lower

section Numbers

theorem isDigit_of_mem_toString {n : ℤ} {c : Char} (h : c ∈ (toString n).toList) :
    c.isDigit ∨ c = '-' := by
  have hdigits : ∀ m : ℕ, c ∈ Nat.toDigits 10 m → c.isDigit := fun m hmem =>
    Nat.isDigit_of_mem_toDigits (by decide) (by decide) hmem
  rw [toList_toString] at h
  split at h
  · exact Or.inl (hdigits _ h)
  · rcases List.mem_cons.mp h with hminus | h
    · exact Or.inr hminus
    · exact Or.inl (hdigits _ h)

theorem not_isSpace_of_isDigit {c : Char} (h : c.isDigit) : isSpace c = false := by
  rw [Char.isDigit, Bool.and_eq_true, decide_eq_true_eq, decide_eq_true_eq] at h
  have hlow : 48 ≤ c.toNat := h.1
  rw [isSpace, decide_eq_false_iff_not]
  rintro (rfl | ⟨-, hle⟩)
  · revert hlow
    decide
  · omega

theorem dropWhile_isSpace_toDigits (m : ℕ) :
    (Nat.toDigits 10 m).dropWhile isSpace = Nat.toDigits 10 m := by
  cases hdigits : Nat.toDigits 10 m with
  | nil => rfl
  | cons c rest =>
      have hc : c ∈ Nat.toDigits 10 m := hdigits ▸ List.mem_cons_self
      have hdigit : c.isDigit := Nat.isDigit_of_mem_toDigits (by decide) (by decide) hc
      rw [List.dropWhile_cons_of_neg]
      rw [not_isSpace_of_isDigit hdigit]
      decide

/-- A port is read from its digits. -/
theorem atoi_toString {n : ℤ} (h : toInt32 n = n) : atoi (toString n).toList = n := by
  have hrange : -2 ^ 31 ≤ n ∧ n < 2 ^ 31 := by
    rw [toInt32] at h
    have hle := Int.le_bmod (x := n) (m := 2 ^ 32) (by decide)
    have hlt := Int.bmod_lt (x := n) (m := 2 ^ 32) (by decide)
    rw [h] at hle hlt
    omega
  have hdigits : ∀ m : ℕ, (Nat.toDigits 10 m).takeWhile Char.isDigit = Nat.toDigits 10 m := by
    intro m
    rw [List.takeWhile_eq_self_iff]
    intro c hc
    exact Nat.isDigit_of_mem_toDigits (by decide) (by decide) hc
  have hvalue : ∀ m : ℕ, Nat.ofDigitChars 10 (Nat.toDigits 10 m) 0 = m := by
    intro m
    exact Nat.ofDigitChars_toDigits (by decide) (by decide)
  rw [atoi, toList_toString]
  by_cases hnonneg : 0 ≤ n
  · rw [if_pos hnonneg, dropWhile_isSpace_toDigits, unsigned_toDigits]
    simp only [hdigits, hvalue, Bool.false_eq_true, if_false, Int.toNat_of_nonneg hnonneg]
    rw [min_eq_left (by omega), max_eq_right (by omega), h]
  · have hminus : -(((-n).toNat : ℕ) : ℤ) = n := by omega
    have hspace : isSpace '-' = false := by decide
    rw [if_neg hnonneg, List.dropWhile_cons_of_neg (by rw [hspace]; decide), unsigned]
    simp only [hdigits, hvalue, if_true, hminus]
    rw [min_eq_left (by omega), max_eq_right (by omega), h]

end Numbers

section Parse

variable {u v : Uri} {text : List Char}

/-- The uris with an authority. -/
def Httpx (u : Uri) : Prop :=
  u.scheme = http ∨ u.scheme = https

namespace Httpx

theorem ne_file (h : u.Httpx) : u.scheme ≠ file := by
  rcases h with h | h
  · rw [h]
    decide
  · rw [h]
    decide

theorem require (h : u.Httpx) (name : String) : u.requireHttpx name = .ok () := by
  rw [requireHttpx, if_neg]
  · rfl
  · rintro ⟨hhttp, hhttps⟩
    exact h.elim hhttp hhttps

theorem setUsername (h : u.Httpx) (text : List Char) :
    u.setUsername text = .ok { u with username := text } := by
  rw [Uri.setUsername, h.require, ok_bind]
  rfl

theorem setPassword (h : u.Httpx) (text : List Char) :
    u.setPassword text = .ok { u with password := text } := by
  rw [Uri.setPassword, h.require, ok_bind]
  rfl

theorem getHostname (h : u.Httpx) : u.getHostname = .ok u.hostname := by
  rw [Uri.getHostname, h.require, ok_bind]
  rfl

theorem setHostname (h : u.Httpx) (text : List Char) :
    u.setHostname text = .ok { u with hostname := toLower text } := by
  rw [Uri.setHostname, h.require, ok_bind]
  rfl

theorem setPort (h : u.Httpx) (port : ℤ) : u.setPort port = .ok { u with port := port } := by
  rw [Uri.setPort, h.require, ok_bind]
  rfl

theorem setQuery (h : u.Httpx) (text : List Char) :
    u.setQuery text = .ok { u with query := text } := by
  rw [Uri.setQuery, h.require, ok_bind]
  rfl

theorem setFragment (h : u.Httpx) (text : List Char) :
    u.setFragment text = .ok { u with fragment := text } := by
  rw [Uri.setFragment, h.require, ok_bind]
  rfl

/-- The user info only changes the user info. -/
theorem parseUserInfo (h : u.Httpx) (text : List Char) :
    ∃ username password nl, u.parseUserInfo text =
      .ok ({ u with username := username, password := password }, nl) ∧ nl ⊆ text := by
  rw [Uri.parseUserInfo]
  cases hcut : cut '@' text with
  | none => exact ⟨u.username, u.password, text, rfl, List.Subset.refl text⟩
  | some r =>
      obtain ⟨user, nl⟩ := r
      have hnl : nl ⊆ text := (subset_of_cut hcut).2
      dsimp only
      rw [h.setUsername, ok_bind]
      cases cut ':' user with
      | none => exact ⟨user, u.password, nl, rfl, hnl⟩
      | some r =>
          have huser : Httpx { u with username := user } := h
          have hpassword : Httpx { u with username := user, password := r.2 } := h
          dsimp only
          rw [huser.setPassword, ok_bind, hpassword.setUsername, ok_bind]
          exact ⟨r.1, r.2, nl, rfl, hnl⟩

/-- The host of an authority, and its port. -/
theorem parseAuthority (h : u.Httpx) (hv : u.parseAuthority text = .ok v) :
    ∃ username password host port,
      v = { u with
        username := username
        password := password
        hostname := toLower host
        port := port } ∧
      host ⊆ text ∧ ':' ∉ host ∧ (port = u.port ∨ ∃ digits, port = atoi digits) := by
  rw [Uri.parseAuthority] at hv
  split at hv
  · cases hv
  · obtain ⟨username, password, nl, huser, hnl⟩ := h.parseUserInfo text
    have huserInfo : Httpx { u with username := username, password := password } := h
    rw [huser, ok_bind] at hv
    dsimp only at hv
    cases hcut : cut ':' nl with
    | none =>
        rw [hcut] at hv
        dsimp only at hv
        rw [huserInfo.setHostname] at hv
        cases hv
        exact ⟨username, password, nl, u.port, rfl, hnl, notMem_of_cut_none hcut, Or.inl rfl⟩
    | some r =>
        obtain ⟨host, port⟩ := r
        have hhost : Httpx { u with
          username := username, password := password, hostname := toLower host } := h
        rw [hcut] at hv
        dsimp only at hv
        rw [huserInfo.setHostname, ok_bind, hhost.setPort] at hv
        cases hv
        have hsubset := List.Subset.trans (subset_of_cut hcut).1 hnl
        exact ⟨username, password, host, atoi port, rfl, hsubset, notMem_of_cut hcut,
          Or.inr ⟨port, rfl⟩⟩

end Httpx

/-- The port of a scheme. -/
def defaultPort (u : Uri) : ℤ :=
  if u.scheme = http then 80 else 443

theorem Httpx.parsePort (h : u.Httpx) :
    u.parsePort = .ok { u with port := if u.port = 0 then u.defaultPort else u.port } := by
  rw [Uri.parsePort]
  by_cases hport : u.port = 0
  · rw [if_pos hport, if_pos hport, defaultPort]
    by_cases hscheme : u.scheme = http
    · rw [if_pos hscheme, if_pos hscheme, h.setPort]
    · rw [if_neg hscheme, if_neg hscheme, if_pos (h.resolve_left hscheme), h.setPort]
  · rw [if_neg hport, if_neg hport]
    rfl

/-- The query and the fragment are taken from the path, and the port is set. -/
theorem Httpx.parseRest (h : u.Httpx) (hv : u.parseRest text = .ok v) :
    ∃ query fragment path,
      v = { u with
        query := query
        fragment := fragment
        port := if u.port = 0 then u.defaultPort else u.port
        path := path } ∧
      '#' ∉ path ∧ '?' ∉ path := by
  have hfragment : ∃ fragment path, parseSuffix '#' Uri.setFragment u text =
      .ok ({ u with fragment := fragment }, path) ∧ '#' ∉ path := by
    rw [parseSuffix]
    cases hcut : cut '#' text with
    | none => exact ⟨u.fragment, text, rfl, notMem_of_cut_none hcut⟩
    | some r =>
        dsimp only
        rw [h.setFragment, ok_bind]
        exact ⟨r.2, r.1, rfl, notMem_of_cut hcut⟩
  obtain ⟨fragment, uri, hsuffix, huri⟩ := hfragment
  have hu : Httpx { u with fragment := fragment } := h
  have hquery : ∃ query path, parseSuffix '?' Uri.setQuery { u with fragment := fragment } uri =
      .ok ({ u with query := query, fragment := fragment }, path) ∧ '#' ∉ path ∧
        '?' ∉ path := by
    rw [parseSuffix]
    cases hcut : cut '?' uri with
    | none => exact ⟨u.query, uri, rfl, huri, notMem_of_cut_none hcut⟩
    | some r =>
        dsimp only
        rw [hu.setQuery, ok_bind]
        exact ⟨r.2, r.1, rfl, fun hmem => huri ((subset_of_cut hcut).1 hmem),
          notMem_of_cut hcut⟩
  obtain ⟨query, path, hsuffix', hpath⟩ := hquery
  have hu' : Httpx { u with query := query, fragment := fragment } := h
  rw [Uri.parseRest, hsuffix, ok_bind] at hv
  dsimp only at hv
  rw [hsuffix', ok_bind] at hv
  dsimp only at hv
  rw [hu'.parsePort, ok_bind] at hv
  cases hv
  exact ⟨query, fragment, path, rfl, hpath⟩

/-- What the parser makes of a text with an authority. -/
structure Parsed (u : Uri) : Prop where
  httpx : u.Httpx
  host : ∀ c ∈ u.hostname, endsAuthority c = false ∧ c ≠ ':' ∧ c.toLower = c
  port_ne : u.port ≠ 0
  port_int : toInt32 u.port = u.port
  fragment : '#' ∉ u.path
  query : '?' ∉ u.path

theorem defaultPort_cases (u : Uri) : u.defaultPort = 80 ∨ u.defaultPort = 443 := by
  rw [defaultPort]
  split
  · exact Or.inl rfl
  · exact Or.inr rfl

theorem toInt32_atoi (text : List Char) : toInt32 (atoi text) = atoi text :=
  Int.bmod_bmod

theorem httpx_setScheme {w : Uri} {scheme : List Char} (h : w.setScheme scheme = .ok u) :
    u = { w with scheme := toLower scheme } ∧ (u.scheme = file ∨ u.Httpx) := by
  rw [setScheme] at h
  split at h
  · cases h
  · rename_i hscheme
    cases h
    refine ⟨rfl, ?_⟩
    by_contra hother
    obtain ⟨hfile, hhttpx⟩ := not_or.mp hother
    exact hscheme ⟨hfile, not_or.mp hhttpx⟩

/-- What the parser reads is a file, or it is put together from an authority and the text
after it. -/
theorem parse_cases (h : parse text = .ok u) :
    u = { scheme := file, path := u.path } ∨
      ∃ scheme uri v, cutAt [':', '/', '/'] text = some (scheme, uri) ∧
        setScheme {} scheme = .ok { scheme := toLower scheme } ∧
        Httpx { scheme := toLower scheme } ∧
        parseAuthority { scheme := toLower scheme }
          (uri.takeWhile fun c => !endsAuthority c) = .ok v ∧
        v.parseRest (uri.dropWhile fun c => !endsAuthority c).tail = .ok u := by
  rw [parse] at h
  split at h
  · cases h
  · rename_i scheme uri hcut
    obtain ⟨w, hw, h⟩ := bind_eq_ok.mp h
    obtain ⟨rfl, hscheme⟩ := httpx_setScheme hw
    split at h
    · rename_i hfile
      cases h
      exact .inl (Uri.mk.injEq .. |>.mpr ⟨hfile, rfl, rfl, rfl, rfl, rfl, rfl, rfl⟩)
    · rename_i hfile
      obtain ⟨v, hv, h⟩ := bind_eq_ok.mp h
      exact .inr ⟨scheme, uri, v, hcut, hw, hscheme.resolve_left hfile, hv, h⟩

theorem parse_of_httpx (h : parse text = .ok u) (hu : u.Httpx) :
    ∃ scheme uri v, cutAt [':', '/', '/'] text = some (scheme, uri) ∧
      setScheme {} scheme = .ok { scheme := toLower scheme } ∧
      Httpx { scheme := toLower scheme } ∧
      parseAuthority { scheme := toLower scheme }
        (uri.takeWhile fun c => !endsAuthority c) = .ok v ∧
      v.parseRest (uri.dropWhile fun c => !endsAuthority c).tail = .ok u := by
  apply (parse_cases h).resolve_left
  intro heq
  have hscheme : u.scheme = file := by rw [heq]
  exact hu.ne_file hscheme

theorem parsed_of_parse (h : parse text = .ok u) (hu : u.Httpx) : Parsed u := by
  obtain ⟨scheme, uri, v, -, -, hhttpx, hv, h⟩ := parse_of_httpx h hu
  obtain ⟨username, password, host, port, rfl, hhost, hcolon, hport⟩ := hhttpx.parseAuthority hv
  have hv' : Httpx {
      scheme := toLower scheme
      username := username
      password := password
      hostname := toLower host
      port := port } := hhttpx
  obtain ⟨query, fragment, path, rfl, hpath⟩ := hv'.parseRest h
  have hends : ∀ c ∈ host, endsAuthority c = false := by
    intro c hc
    have htake := List.mem_takeWhile_imp (hhost hc)
    rwa [Bool.not_eq_true'] at htake
  refine ⟨hu, ?_, ?_, ?_, hpath.1, hpath.2⟩
  · intro c hc
    obtain ⟨a, ha, rfl⟩ := List.mem_map.mp hc
    refine ⟨?_, ?_, toLower_toLower a⟩
    · cases hlower : endsAuthority a.toLower with
      | false => rfl
      | true =>
          have hsame : a.toLower = a := by
            rw [endsAuthority, decide_eq_true_eq] at hlower
            rcases hlower with heq | heq | heq
            · rw [heq, eq_of_toLower_eq heq (by decide)]
            · rw [heq, eq_of_toLower_eq heq (by decide)]
            · rw [heq, eq_of_toLower_eq heq (by decide)]
          rw [hsame, hends a ha] at hlower
          cases hlower
    · intro heq
      exact hcolon (eq_of_toLower_eq heq (by decide) ▸ ha)
  · dsimp only
    split
    · rcases defaultPort_cases _ with heq | heq
      · rw [heq]
        decide
      · rw [heq]
        decide
    · assumption
  · dsimp only
    split
    · rcases defaultPort_cases _ with heq | heq
      · rw [heq]
        decide
      · rw [heq]
        decide
    · rename_i hne
      rcases hport with heq | ⟨digits, heq⟩
      · exact absurd heq hne
      · rw [heq]
        exact toInt32_atoi digits

end Parse

end Uri

end Gearbox
