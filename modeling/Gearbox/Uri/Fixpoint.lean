import Gearbox.Uri.Components

/-!
# Canonical forms that are parsed again

The canonical form of a uri is parsed and printed again. It is the same text if the path does not
vanish, and if the authority starts with a user name or a host name that is read as such. A path
vanishes if its segments cancel and no separator follows them; then a query is taken for the path,
or the second canonical form has a separator that the first has not.
-/

namespace Gearbox

open Json Refinement Texts

namespace Uri

section Paths

/-- Nothing of a path is left in its canonical form. -/
def Vanishes (path : List Char) : Prop :=
  ¬ EndsOpen path ∧ segmentStack path = []

theorem canonicalizePath_of_vanishes {path : List Char} (h : Vanishes path) :
    canonicalizePath path = [] := by
  rw [canonicalizePath_eq_joined, canonicalParts, keptSegments, h.2, if_neg h.1]
  rfl

theorem canonicalizePath_slash (path : List Char) :
    canonicalizePath ('/' :: path) = canonicalizePath path := by
  by_cases hpath : path = []
  · rw [hpath]
    rfl
  · have hsplit : ('/' :: path).splitOn '/' = [] :: path.splitOn '/' :=
      List.splitOn_append_cons_self_of_not_mem (List.not_mem_nil (a := '/')) path
    rw [canonicalizePath, canonicalizePath, if_neg (List.cons_ne_nil _ _), if_neg hpath, hsplit,
      normalize, if_pos (Or.inl rfl), List.getLast?_cons_of_ne_nil hpath]

/-- A path that does not vanish is put together from parts. -/
theorem split_of_not_vanishes {path : List Char} (h : ¬ Vanishes path) :
    ∃ part parts, Split (canonicalizePath path) part parts := by
  rw [canonicalizePath_eq_joined, canonicalParts]
  cases hkept : keptSegments path with
  | nil =>
      have hopen : EndsOpen path := by
        by_contra hopen
        exact h ⟨hopen, List.reverse_eq_nil_iff.mp hkept⟩
      rw [if_pos hopen]
      exact ⟨[], [], split_slash⟩
  | cons part parts =>
      have hordinary : ∀ p ∈ part :: parts, Ordinary p := by
        intro p hp
        rw [← hkept] at hp
        exact ordinary_of_mem_keptSegments hp
      have hsplit := split_joined (decide (EndsOpen path))
        (fun p hp => ⟨(hordinary p hp).ne_nil, (hordinary p hp).notMem⟩)
        (fun p hp => ⟨(hordinary p hp).ne_dot, (hordinary p hp).ne_dots⟩)
      rw [joined_append]
      by_cases hopen : EndsOpen path
      · rw [decide_eq_true hopen] at hsplit
        rw [if_pos hopen]
        exact ⟨part, _, hsplit⟩
      · rw [decide_eq_false hopen] at hsplit
        rw [if_neg hopen]
        exact ⟨part, _, hsplit⟩

/-- A canonical path is its own canonical form, with or without its first separator. -/
theorem canonicalizePath_again {path : List Char} (h : ¬ Vanishes path) :
    ∃ rest, canonicalizePath path = '/' :: rest ∧
      canonicalizePath rest = canonicalizePath path := by
  obtain ⟨part, parts, hsplit⟩ := split_of_not_vanishes h
  refine ⟨part ++ joined '/' parts, ?_, hsplit.again⟩
  rw [hsplit.joined_eq, joined_cons]

theorem mem_of_mem_foldl {segments stack : List (List Char)} {segment : List Char}
    (h : segment ∈ segments.foldl pushSegment stack) : segment ∈ stack ∨ segment ∈ segments := by
  induction segments generalizing stack with
  | nil => exact .inl h
  | cons first segments ih =>
      rw [List.foldl_cons] at h
      rcases ih h with hmem | hmem
      · rw [pushSegment] at hmem
        split at hmem
        · exact .inl hmem
        · split at hmem
          · exact .inl (List.mem_of_mem_tail hmem)
          · rcases List.mem_cons.mp hmem with rfl | hmem
            · exact .inr List.mem_cons_self
            · exact .inl hmem
      · exact .inr (List.mem_cons_of_mem first hmem)

/-- A canonical path has no characters but the separator that the path has not. -/
theorem notMem_canonicalizePath_of_notMem {d : Char} {path : List Char} (h : d ∉ path)
    (hd : d ≠ '/') : d ∉ canonicalizePath path := by
  rw [canonicalizePath_eq_joined]
  intro hmem
  obtain ⟨part, hpart, hmem⟩ := List.mem_flatMap.mp hmem
  rcases List.mem_cons.mp hmem with heq | hmem
  · exact hd heq
  · rw [canonicalParts, List.mem_append, keptSegments, List.mem_reverse] at hpart
    rcases hpart with hpart | hpart
    · rcases mem_of_mem_foldl hpart with hpart | hpart
      · cases hpart
      · exact h (mem_of_mem_splitOn hpart hmem)
    · split at hpart
      · rw [List.mem_singleton.mp hpart] at hmem
        cases hmem
      · cases hpart

end Paths

section Authority

variable {u : Uri}

/-- The user name and the password with the separator after them, if there is a user name. -/
def userText (u : Uri) : List Char :=
  if u.username = [] then []
  else u.username ++ (if u.password = [] then [] else ':' :: u.password) ++ ['@']

/-- What is printed before the path. -/
def authorityText (u : Uri) : List Char :=
  u.userText ++ u.host

theorem Httpx.authority (h : u.Httpx) : u.authority = .ok u.authorityText := by
  rw [Uri.authority, if_neg h.ne_file, h.hostport]
  rfl

/-- The port that is printed. -/
def printedPort (u : Uri) : Option ℤ :=
  if u.port = u.defaultPort then none else some u.port

theorem host_eq_hostText (u : Uri) : u.host = hostText u.hostname u.printedPort := by
  rw [host, printedPort]
  split
  · exact (List.append_nil _).symm
  · rfl

/-- The characters of the user info of a parsed uri. -/
structure UserInfo (u : Uri) : Prop where
  username : ∀ c ∈ u.username, endsAuthority c = false ∧ c ≠ '@' ∧ c ≠ ':'
  password : ∀ c ∈ u.password, endsAuthority c = false ∧ c ≠ '@'

theorem userInfo_of_parseUserInfo (h : u.Httpx) (husername : u.username = [])
    (hpassword : u.password = []) {text nl : List Char} {v : Uri}
    (htext : ∀ c ∈ text, endsAuthority c = false) (hv : u.parseUserInfo text = .ok (v, nl)) :
    v.UserInfo := by
  rw [parseUserInfo] at hv
  cases hcut : cut '@' text with
  | none =>
      rw [hcut] at hv
      cases hv
      refine ⟨?_, ?_⟩
      · rw [husername]
        exact fun c hc => absurd hc List.not_mem_nil
      · rw [hpassword]
        exact fun c hc => absurd hc List.not_mem_nil
  | some r =>
      obtain ⟨user, after⟩ := r
      have hat := notMem_of_cut hcut
      have huser : ∀ c ∈ user, endsAuthority c = false ∧ c ≠ '@' := by
        intro c hc
        refine ⟨htext c ((subset_of_cut hcut).1 hc), ?_⟩
        rintro rfl
        exact hat hc
      have hset : Httpx { u with username := user } := h
      rw [hcut] at hv
      dsimp only at hv
      rw [h.setUsername, ok_bind] at hv
      cases hcolon : cut ':' user with
      | none =>
          rw [hcolon] at hv
          cases hv
          refine ⟨?_, ?_⟩
          · intro c hc
            refine ⟨(huser c hc).1, (huser c hc).2, ?_⟩
            rintro rfl
            exact notMem_of_cut_none hcolon hc
          · rw [hpassword]
            exact fun c hc => absurd hc List.not_mem_nil
      | some r =>
          obtain ⟨name, password⟩ := r
          have hset' : Httpx { u with username := user, password := password } := h
          rw [hcolon] at hv
          dsimp only at hv
          rw [hset.setPassword, ok_bind, hset'.setUsername, ok_bind] at hv
          cases hv
          refine ⟨?_, ?_⟩
          · intro c hc
            have hmem := huser c ((subset_of_cut hcolon).1 hc)
            refine ⟨hmem.1, hmem.2, ?_⟩
            rintro rfl
            exact notMem_of_cut hcolon hc
          · exact fun c hc => huser c ((subset_of_cut hcolon).2 hc)

theorem userInfo_of_parseAuthority (h : u.Httpx) (husername : u.username = [])
    (hpassword : u.password = []) {text : List Char} {v : Uri}
    (htext : ∀ c ∈ text, endsAuthority c = false) (hv : u.parseAuthority text = .ok v) :
    v.UserInfo := by
  rw [Uri.parseAuthority] at hv
  split at hv
  · cases hv
  · obtain ⟨⟨w, nl⟩, hw, hv⟩ := bind_eq_ok.mp hv
    have hinfo := userInfo_of_parseUserInfo h husername hpassword htext hw
    obtain ⟨username, password, nl', heq, -⟩ := h.parseUserInfo text
    rw [heq] at hw
    cases hw
    have hset : Httpx { u with username := username, password := password } := h
    dsimp only at hv
    split at hv
    · rename_i host port hcut
      have hset' : Httpx { u with
        username := username, password := password, hostname := toLower host } := h
      rw [hset.setHostname, ok_bind, hset'.setPort] at hv
      cases hv
      exact ⟨hinfo.username, hinfo.password⟩
    · rw [hset.setHostname] at hv
      cases hv
      exact ⟨hinfo.username, hinfo.password⟩

/-- What the parser makes of the user info and of the query, too. -/
structure Read (u : Uri) : Prop extends Parsed u, UserInfo u where
  query_fragment : '#' ∉ u.query

theorem notMem_beforeFragment (text : List Char) : '#' ∉ beforeFragment text := by
  rw [beforeFragment]
  cases hcut : cut '#' text with
  | none => exact notMem_of_cut_none hcut
  | some r => exact notMem_of_cut hcut

theorem notMem_queryOf (text : List Char) : '#' ∉ queryOf text := by
  rw [queryOf]
  cases hcut : cut '?' (beforeFragment text) with
  | none => exact List.not_mem_nil
  | some r => exact fun hmem => notMem_beforeFragment text ((subset_of_cut hcut).2 hmem)

theorem read_of_parse {text : List Char} (h : parse text = .ok u) (hu : u.Httpx) : u.Read := by
  have hparsed := parsed_of_parse h hu
  obtain ⟨scheme, uri, v, -, -, hhttpx, hv, h⟩ := parse_of_httpx h hu
  have hends : ∀ c ∈ uri.takeWhile (fun c => !endsAuthority c), endsAuthority c = false := by
    intro c hc
    have htake := List.mem_takeWhile_imp hc
    rwa [Bool.not_eq_true'] at htake
  have hinfo := userInfo_of_parseAuthority hhttpx rfl rfl hends hv
  obtain ⟨username, password, host, port, rfl, -⟩ := hhttpx.parseAuthority hv
  have hv' : Httpx {
      scheme := toLower scheme
      username := username
      password := password
      hostname := toLower host
      port := port } := hhttpx
  rw [hv'.parseRest_cut rfl rfl] at h
  cases h
  exact ⟨hparsed, ⟨hinfo.username, hinfo.password⟩, notMem_queryOf _⟩

/-- The characters of an authority that is printed. -/
theorem Read.endsAuthority (h : u.Read) : ∀ c ∈ u.authorityText, endsAuthority c = false := by
  intro c hc
  rw [authorityText, List.mem_append] at hc
  rcases hc with hc | hc
  · rw [userText] at hc
    split at hc
    · cases hc
    · rcases List.mem_append.mp hc with hc | hc
      · rcases List.mem_append.mp hc with hc | hc
        · exact (h.username c hc).1
        · split at hc
          · cases hc
          · rcases List.mem_cons.mp hc with rfl | hc
            · rfl
            · exact (h.password c hc).1
      · rw [List.mem_singleton.mp hc]
        rfl
  · rw [host_eq_hostText] at hc
    exact endsAuthority_hostText (fun d hd => (h.host d hd).1) u.printedPort c hc

/-- An authority with user info. -/
theorem Httpx.parseAuthority_user (h : u.Httpx) {user host : List Char} {port : Option ℤ}
    (hat : '@' ∉ user) (hcolon : ':' ∉ host) (hport : ∀ n, port = some n → toInt32 n = n) :
    u.parseAuthority (user ++ '@' :: hostText host port) = .ok { u with
      username := (cut ':' user).elim user Prod.fst
      password := (cut ':' user).elim u.password Prod.snd
      hostname := toLower host
      port := port.getD u.port } := by
  have hne : user ++ '@' :: hostText host port ≠ [] := by simp
  have huser : u.parseUserInfo (user ++ '@' :: hostText host port) = .ok ({ u with
      username := (cut ':' user).elim user Prod.fst
      password := (cut ':' user).elim u.password Prod.snd }, hostText host port) := by
    have hset : Httpx { u with username := user } := h
    rw [Uri.parseUserInfo, cut_append hat]
    dsimp only
    rw [h.setUsername, ok_bind]
    cases cut ':' user with
    | none => rfl
    | some r =>
        have hset' : Httpx { u with username := user, password := r.2 } := h
        dsimp only
        rw [hset.setPassword, ok_bind, hset'.setUsername, ok_bind]
        rfl
  have hhttpx : Httpx { u with
      username := (cut ':' user).elim user Prod.fst
      password := (cut ':' user).elim u.password Prod.snd } := h
  rw [Uri.parseAuthority, if_neg hne, huser, ok_bind]
  exact hhttpx.parseHost hcolon hport

/-- The uri without its path, as it is read from its authority. -/
def reread (u : Uri) : Uri :=
  if u.username = [] then
    match cut '@' u.hostname with
    | none => { scheme := u.scheme, hostname := u.hostname, port := u.port }
    | some (user, host) =>
      { scheme := u.scheme, username := user, hostname := host, port := u.port }
  else
    { u with path := [], query := [], fragment := [] }

theorem reread_fields (u : Uri) : u.reread.scheme = u.scheme ∧ u.reread.port = u.port ∧
    u.reread.query = [] ∧ u.reread.fragment = [] := by
  rw [reread]
  split
  · split
    · exact ⟨rfl, rfl, rfl, rfl⟩
    · exact ⟨rfl, rfl, rfl, rfl⟩
  · exact ⟨rfl, rfl, rfl, rfl⟩

theorem Read.printedPort_again (h : u.Read) :
    (if u.printedPort.getD 0 = 0 then u.defaultPort else u.printedPort.getD 0) = u.port := by
  rw [printedPort]
  split
  · rename_i hport
    rw [Option.getD_none, if_pos rfl, hport]
  · rw [Option.getD_some, if_neg h.port_ne]

theorem Read.printedPort_int (h : u.Read) : ∀ n, u.printedPort = some n → toInt32 n = n := by
  intro n hn
  rw [printedPort] at hn
  split at hn
  · cases hn
  · cases hn
    exact h.port_int

theorem Read.toLower_hostname (h : u.Read) : toLower u.hostname = u.hostname :=
  toLower_eq_self fun c hc => (h.host c hc).2.2

theorem Read.colon (h : u.Read) : ':' ∉ u.hostname :=
  fun hmem => (h.host ':' hmem).2.1 rfl

/-- The authority that is printed is read again. -/
theorem Read.parseAuthority_again (h : u.Read) (hne : u.authorityText ≠ []) :
    ∃ port, Uri.parseAuthority { scheme := u.scheme } u.authorityText =
        .ok { u.reread with port := port } ∧
      (if port = 0 then u.defaultPort else port) = u.port := by
  have hbase : Httpx { scheme := u.scheme } := h.httpx
  refine ⟨u.printedPort.getD 0, ?_, h.printedPort_again⟩
  rw [authorityText, userText, host_eq_hostText] at hne ⊢
  rw [reread]
  split
  · rename_i husername
    rw [if_pos husername, List.nil_append] at hne
    rw [List.nil_append]
    cases hcut : cut '@' u.hostname with
    | none =>
        have hhost := hbase.parseAuthority_host hne (notMem_of_cut_none hcut) h.colon
          h.printedPort_int
        rw [hhost, h.toLower_hostname]
    | some r =>
        obtain ⟨user, host⟩ := r
        have hhostname := eq_of_cut hcut
        have htext : hostText u.hostname u.printedPort =
            user ++ '@' :: hostText host u.printedPort := by
          rw [hostText, hhostname, List.append_assoc, List.cons_append, hostText]
        have hcolon : ':' ∉ user ∧ ':' ∉ host :=
          ⟨fun hmem => h.colon ((subset_of_cut hcut).1 hmem),
            fun hmem => h.colon ((subset_of_cut hcut).2 hmem)⟩
        have hlower : toLower host = host :=
          toLower_eq_self fun c hc => (h.host c ((subset_of_cut hcut).2 hc)).2.2
        rw [htext, hbase.parseAuthority_user (notMem_of_cut hcut) hcolon.2 h.printedPort_int,
          cut_of_notMem hcolon.1, hlower]
        rfl
  · have hat : '@' ∉ u.username ++ (if u.password = [] then [] else ':' :: u.password) := by
      rw [List.mem_append, not_or]
      refine ⟨fun hmem => (h.username _ hmem).2.1 rfl, ?_⟩
      split
      · exact List.not_mem_nil
      · rw [List.mem_cons, not_or]
        exact ⟨by decide, fun hmem => (h.password _ hmem).2 rfl⟩
    have hcolon : ':' ∉ u.username := fun hmem => (h.username _ hmem).2.2 rfl
    rw [List.append_assoc, List.singleton_append,
      hbase.parseAuthority_user hat h.colon h.printedPort_int, h.toLower_hostname]
    by_cases hpassword : u.password = []
    · rw [if_pos hpassword, List.append_nil, cut_of_notMem hcolon, hpassword]
      rfl
    · rw [if_neg hpassword, cut_append hcolon]
      rfl

/-- A host name that is not taken for user info without a user name. -/
def Named (u : Uri) : Prop :=
  u.username = [] → u.hostname.head? ≠ some '@'

theorem host_of_eq {v : Uri} (hscheme : v.scheme = u.scheme) (hport : v.port = u.port) :
    v.host = hostText v.hostname u.printedPort := by
  rw [host_eq_hostText, printedPort, printedPort, hport, defaultPort, defaultPort, hscheme]

/-- The authority is printed again, but for a separator at the start of the host name. -/
theorem authorityText_reread (u : Uri) :
    u.reread.authorityText = u.authorityText ↔ u.Named := by
  by_cases husername : u.username = []
  · have htext : u.authorityText = hostText u.hostname u.printedPort := by
      rw [authorityText, userText, if_pos husername, List.nil_append, host_eq_hostText]
    have hnamed : u.Named ↔ u.hostname.head? ≠ some '@' := forall_prop_of_true husername
    rw [htext, hnamed, reread, if_pos husername]
    cases hcut : cut '@' u.hostname with
    | none =>
        refine iff_of_true ?_ ?_
        · rw [authorityText, userText, if_pos rfl, List.nil_append]
          exact host_of_eq rfl rfl
        · exact fun hhead => notMem_of_cut_none hcut (List.mem_of_head? hhead)
    | some r =>
        obtain ⟨user, host⟩ := r
        have hhostname := eq_of_cut hcut
        have hhost : Uri.host
            { scheme := u.scheme, username := user, hostname := host, port := u.port } =
              hostText host u.printedPort := host_of_eq rfl rfl
        dsimp only
        rw [authorityText, hhost, hhostname, userText]
        dsimp only
        cases user with
        | nil =>
            refine iff_of_false ?_ (by simp)
            intro heq
            have hlength := congrArg List.length heq
            simp [hostText] at hlength
        | cons c user =>
            have hc : c ≠ '@' := by
              rintro rfl
              exact notMem_of_cut hcut List.mem_cons_self
            refine iff_of_true ?_ (by simpa using hc)
            simp [hostText]
  · have hreread : u.reread = { u with path := [], query := [], fragment := [] } := by
      rw [reread, if_neg husername]
    refine iff_of_true ?_ (fun h => absurd h husername)
    rw [hreread]
    rfl

end Authority

section Again

variable {u : Uri}

/-- A text that is there. -/
def present (text : List Char) : Option (List Char) :=
  if text = [] then none else some text

theorem getD_present (text : List Char) : (present text).getD [] = text := by
  rw [present]
  split
  · rename_i h
    exact h.symm
  · rfl

/-- What is printed after the authority. -/
def restText (u : Uri) : List Char :=
  canonicalizePath u.path ++ suffix '?' (present u.query) ++ suffix '#' (present u.fragment)

theorem suffix_present (c : Char) (text : List Char) :
    suffix c (present text) = if text = [] then [] else c :: text := by
  rw [present]
  split
  · rfl
  · rfl

theorem Httpx.canonical_text (h : u.Httpx) :
    u.canonical = .ok (u.scheme ++ [':', '/', '/'] ++ (u.authorityText ++ u.restText)) := by
  rw [canonical, h.authority, ok_bind, restText, suffix_present, suffix_present]
  simp only [List.append_assoc, pure, Except.pure]

theorem closed_restText (u : Uri) : Closed u.restText := by
  refine closed_suffixes ?_ (present u.query) (present u.fragment)
  by_cases h : Vanishes u.path
  · exact .inl (canonicalizePath_of_vanishes h)
  · obtain ⟨rest, hrest, -⟩ := canonicalizePath_again h
    rw [hrest]
    exact .inr rfl

/-- What is read from the canonical form. -/
def again (u : Uri) : Uri where
  scheme := u.reread.scheme
  username := u.reread.username
  password := u.reread.password
  hostname := u.reread.hostname
  path := pathOf u.restText.tail
  query := queryOf u.restText.tail
  fragment := fragmentOf u.restText.tail
  port := u.reread.port

/-- The canonical form is read again. -/
theorem Read.parse_again (h : u.Read) (hne : u.authorityText ≠ []) :
    parse (u.scheme ++ [':', '/', '/'] ++ (u.authorityText ++ u.restText)) = .ok u.again := by
  obtain ⟨port, hparse, hport⟩ := h.parseAuthority_again hne
  obtain ⟨hscheme, hsame, hquery, hfragment⟩ := reread_fields u
  have hhttpx : Httpx { u.reread with port := port } := by
    rw [Httpx, hscheme]
    exact h.httpx
  have hdefault : defaultPort { u.reread with port := port } = u.defaultPort := by
    rw [defaultPort, hscheme, defaultPort]
  rw [parse_authority h.endsAuthority h.httpx (closed_restText u), hparse, ok_bind,
    hhttpx.parseRest_cut hquery hfragment, hdefault, again, hsame]
  dsimp only
  rw [hport]

/-- The query and the fragment of a text are shorter than the text, if there is a path. -/
theorem length_suffixes (text : List Char) :
    (suffix '?' (present (queryOf text)) ++ suffix '#' (present (fragmentOf text))).length +
      (pathOf text).length ≤ text.length := by
  have hsuffix : ∀ c part, (suffix c (present part)).length ≤ part.length + 1 := by
    intro c part
    rw [suffix_present]
    split
    · exact Nat.zero_le _
    · exact Nat.le_refl _
  have hbefore : (suffix '?' (present (queryOf text))).length + (pathOf text).length ≤
      (beforeFragment text).length := by
    rw [queryOf, pathOf]
    cases hcut : cut '?' (beforeFragment text) with
    | none => exact Nat.le_of_eq (Nat.zero_add _)
    | some r =>
        have hlength := congrArg List.length (eq_of_cut hcut)
        have hquery := hsuffix '?' r.2
        rw [List.length_append, List.length_cons] at hlength
        rw [Option.elim_some, Option.elim_some]
        omega
  have hfragment : (suffix '#' (present (fragmentOf text))).length +
      (beforeFragment text).length ≤ text.length := by
    rw [fragmentOf, beforeFragment]
    cases hcut : cut '#' text with
    | none => exact Nat.le_of_eq (Nat.zero_add _)
    | some r =>
        have hlength := congrArg List.length (eq_of_cut hcut)
        have hlast := hsuffix '#' r.2
        rw [List.length_append, List.length_cons] at hlength
        rw [Option.elim_some, Option.elim_some]
        omega
  rw [List.length_append]
  omega

/-- What is printed after the authority is printed again if and only if the path does not
vanish. -/
theorem Read.restText_again (h : u.Read) : u.again.restText = u.restText ↔ ¬ Vanishes u.path := by
  have hpath : u.again.path = pathOf u.restText.tail := rfl
  have hquery : u.again.query = queryOf u.restText.tail := rfl
  have hfragment : u.again.fragment = fragmentOf u.restText.tail := rfl
  constructor
  · intro heq hvanishes
    have hu : u.restText = suffix '?' (present u.query) ++ suffix '#' (present u.fragment) := by
      rw [restText, canonicalizePath_of_vanishes hvanishes, List.nil_append]
    have hhead : u.restText.head? ≠ some '/' := by
      rw [hu, suffix_present, suffix_present]
      split
      · split
        · decide
        · simp
      · simp
    -- the second path vanishes, too, and what is left is shorter
    by_cases hv : Vanishes u.again.path
    · have hne : u.again.path ≠ [] := fun hnil => hv.1 (.inl hnil)
      have hlength := length_suffixes u.restText.tail
      rw [← hpath, ← hquery, ← hfragment] at hlength
      have hvtext : u.again.restText = suffix '?' (present u.again.query) ++
          suffix '#' (present u.again.fragment) := by
        rw [restText, canonicalizePath_of_vanishes hv, List.nil_append]
      rw [← hvtext, heq, List.length_tail] at hlength
      have hpos := List.length_pos_iff.mpr hne
      omega
    · obtain ⟨rest, hrest, -⟩ := canonicalizePath_again hv
      refine hhead ?_
      rw [← heq, restText, hrest]
      rfl
  · intro hvanishes
    obtain ⟨rest, hrest, hagain⟩ := canonicalizePath_again hvanishes
    have hnotMem : '?' ∉ rest ∧ '#' ∉ rest := by
      have hboth : '?' ∉ canonicalizePath u.path ∧ '#' ∉ canonicalizePath u.path :=
        ⟨notMem_canonicalizePath_of_notMem h.query (by decide),
          notMem_canonicalizePath_of_notMem h.fragment (by decide)⟩
      rw [hrest, List.mem_cons, List.mem_cons, not_or, not_or] at hboth
      exact ⟨hboth.1.2, hboth.2.2⟩
    have htail : u.restText.tail =
        rest ++ suffix '?' (present u.query) ++ suffix '#' (present u.fragment) := by
      rw [restText, hrest]
      rfl
    have hpresent : ∀ q, present u.query = some q → '#' ∉ q := by
      intro q hq
      have heq := getD_present u.query
      rw [hq, Option.getD_some] at heq
      rw [heq]
      exact h.query_fragment
    obtain ⟨hpath', hquery', hfragment'⟩ :=
      @cut_suffixes rest hnotMem (present u.query) (present u.fragment) hpresent
    rw [htail, hpath'] at hpath
    rw [htail, hquery', getD_present] at hquery
    rw [htail, hfragment', getD_present] at hfragment
    rw [restText, hpath, hquery, hfragment, hagain, restText]

end Again

section Stable

variable {u : Uri} {text : List Char}

/-- The canonical form is accepted, and it is the canonical form of what is read from it. -/
def Stable (u : Uri) : Prop :=
  ∃ text, u.canonical = .ok text ∧ ∃ v, parse text = .ok v ∧ v.canonical = .ok text

/-- The path does not vanish, and the authority does not become empty and does not start with the
separator of the user info. -/
structure Reprintable (u : Uri) : Prop where
  path : ¬ Vanishes u.path
  named : u.Httpx → u.Named
  host : u.Httpx → u.username = [] → u.hostname = [] → u.port ≠ u.defaultPort

theorem authorityText_eq_nil : u.authorityText = [] ↔
    u.username = [] ∧ u.hostname = [] ∧ u.port = u.defaultPort := by
  rw [authorityText, List.append_eq_nil_iff, userText, host]
  by_cases husername : u.username = []
  · by_cases hport : u.port = u.defaultPort
    · simp [husername, hport]
    · simp [husername, hport]
  · simp [husername]

theorem Read.stable_reprintable (h : u.Read) : u.Stable ↔ u.Reprintable := by
  by_cases hne : u.authorityText = []
  · refine iff_of_false ?_ ?_
    · rintro ⟨c, hc, v, hv, -⟩
      rw [h.httpx.canonical_text, hne] at hc
      cases hc
      rw [parse_authority (fun c hc => absurd hc List.not_mem_nil) h.httpx (closed_restText u)]
        at hv
      cases hv
    · intro hr
      obtain ⟨husername, hhostname, hport⟩ := authorityText_eq_nil.mp hne
      exact hr.host h.httpx husername hhostname hport
  · have hparse := h.parse_again hne
    have hscheme : u.again.scheme = u.scheme := (reread_fields u).1
    have hhttpx : u.again.Httpx := by
      rw [Httpx, hscheme]
      exact h.httpx
    have hread := read_of_parse hparse hhttpx
    have hauthority : u.again.authorityText = u.authorityText ↔ u.Named :=
      authorityText_reread u
    have hrest := h.restText_again
    constructor
    · rintro ⟨c, hc, v, hv, hvc⟩
      rw [h.httpx.canonical_text] at hc
      cases hc
      rw [hparse] at hv
      cases hv
      rw [hhttpx.canonical_text, hscheme] at hvc
      have heq := List.append_cancel_left (Except.ok.inj hvc)
      have htake := takeWhile_authority hread.endsAuthority (closed_restText u.again)
      have hdrop := dropWhile_authority hread.endsAuthority (closed_restText u.again)
      rw [heq, takeWhile_authority h.endsAuthority (closed_restText u)] at htake
      rw [heq, dropWhile_authority h.endsAuthority (closed_restText u)] at hdrop
      refine ⟨hrest.mp hdrop.symm, fun _ => hauthority.mp htake.symm, ?_⟩
      intro _ husername hhostname hport
      exact hne (authorityText_eq_nil.mpr ⟨husername, hhostname, hport⟩)
    · intro hr
      refine ⟨_, h.httpx.canonical_text, _, hparse, ?_⟩
      rw [hhttpx.canonical_text, hscheme, hrest.mpr hr.path,
        hauthority.mpr (hr.named h.httpx)]

/-- A uri with an authority, or a file. -/
theorem httpx_or_file_of_parse (h : parse text = .ok u) :
    u.Httpx ∨ u = { scheme := file, path := u.path } := by
  rcases parse_cases h with heq | ⟨scheme, uri, v, -, -, hhttpx, hv, h⟩
  · exact .inr heq
  · obtain ⟨username, password, host, port, rfl, -⟩ := hhttpx.parseAuthority hv
    have hv' : Httpx {
        scheme := toLower scheme
        username := username
        password := password
        hostname := toLower host
        port := port } := hhttpx
    obtain ⟨query, fragment, path, rfl, -⟩ := hv'.parseRest h
    exact .inl hhttpx

theorem stable_file_iff (path : List Char) :
    Stable { scheme := file, path := path } ↔ ¬ Vanishes path := by
  have hcanonical : ∀ p, canonical { scheme := file, path := p } =
      .ok (file ++ [':', '/', '/'] ++ canonicalizePath p) := by
    intro p
    rw [canonical]
    simp [authority, pure, Except.pure, ok_bind]
  have hparse : ∀ p, parse (file ++ [':', '/', '/'] ++ p) =
      .ok { scheme := file, path := p } := fun p => rfl
  constructor
  · rintro ⟨c, hc, v, hv, hvc⟩ hvanishes
    rw [hcanonical, canonicalizePath_of_vanishes hvanishes] at hc
    cases hc
    rw [hparse] at hv
    cases hv
    rw [hcanonical] at hvc
    cases hvc
  · intro h
    obtain ⟨rest, hrest, hagain⟩ := canonicalizePath_again h
    refine ⟨_, hcanonical path, _, hparse _, ?_⟩
    rw [hcanonical, hrest, canonicalizePath_slash, hagain, hrest]

/-- The canonical form of an accepted text is a fixed point if and only if it can be printed. -/
theorem stable_iff (h : parse text = .ok u) : u.Stable ↔ u.Reprintable := by
  rcases httpx_or_file_of_parse h with hu | hu
  · exact (read_of_parse h hu).stable_reprintable
  · rw [hu, stable_file_iff]
    have hfile : ¬ Httpx { scheme := file, path := u.path } := fun h => h.ne_file rfl
    exact ⟨fun hpath => ⟨hpath, fun h => absurd h hfile, fun h => absurd h hfile⟩,
      fun hr => hr.path⟩

/-- The uri of `http://h/a/../b`. -/
def sampleUri : Uri where
  scheme := http
  hostname := ['h']
  path := ['a', '/', '.', '.', '/', 'b']
  port := 80

theorem stable_sample :
    parse (http ++ [':', '/', '/', 'h', '/', 'a', '/', '.', '.', '/', 'b']) = .ok sampleUri ∧
      sampleUri.Stable := by
  have hparse : parse (http ++ [':', '/', '/', 'h', '/', 'a', '/', '.', '.', '/', 'b']) =
      .ok sampleUri := by
    decide
  refine ⟨hparse, (stable_iff hparse).mpr ⟨?_, ?_, ?_⟩⟩
  · exact fun hvanishes => absurd hvanishes.2 (by decide)
  · exact fun _ _ => by decide
  · exact fun _ _ hhostname => absurd hhostname (by decide)

/-- The canonical form of `http://h/.` is `http://h`, and the canonical form of this is
`http://h/`. -/
theorem not_stable : ¬ ∀ text u, parse text = .ok u → u.Stable := by
  intro hall
  have hparse : parse (http ++ [':', '/', '/', 'h', '/', '.']) =
      .ok { scheme := http, hostname := ['h'], path := ['.'], port := 80 } := by
    decide
  have hparse' : parse (http ++ [':', '/', '/', 'h']) =
      .ok { scheme := http, hostname := ['h'], port := 80 } := by
    decide
  obtain ⟨c, hc, v, hv, hvc⟩ := hall _ _ hparse
  have hcanonical : canonical { scheme := http, hostname := ['h'], path := ['.'], port := 80 } =
      .ok (http ++ [':', '/', '/', 'h']) := by
    decide
  have hcanonical' : canonical { scheme := http, hostname := ['h'], port := 80 } =
      .ok (http ++ [':', '/', '/', 'h', '/']) := by
    decide
  rw [hcanonical] at hc
  cases hc
  rw [hparse'] at hv
  cases hv
  rw [hcanonical'] at hvc
  cases hvc

end Stable

end Uri

end Gearbox
