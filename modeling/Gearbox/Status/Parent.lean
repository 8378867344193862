import Gearbox.Status.Resource
import Gearbox.Uri.Fixpoint

/-!
# The parent of a status

A status keeps the uri of its parent. `StatusImpl::parent` takes the parent for a local status if
the base uri is a prefix of this text, and then fetches the status that the leaf of the uri names.
Any other parent is fetched by its uri. A prefix may end inside a part of the path, so that the
parent is found if and only if the prefix is the base of the parent, or there is no prefix.
-/

namespace Gearbox

open Json Refinement Texts

namespace Uri

section Extension

variable {u : Uri} {text rest : List Char}

/-- The text from the separator on that ends the authority. -/
def afterAuthority (text : List Char) : List Char :=
  (cutAt [':', '/', '/'] text).elim [] fun r => r.2.dropWhile fun c => !endsAuthority c

theorem takeWhile_append_slash (text rest : List Char) :
    (text ++ '/' :: rest).takeWhile (fun c => !endsAuthority c) =
      text.takeWhile fun c => !endsAuthority c := by
  induction text with
  | nil => rfl
  | cons c text ih =>
      rw [List.cons_append, List.takeWhile_cons, List.takeWhile_cons, ih]

theorem dropWhile_append_slash (text rest : List Char) :
    (text ++ '/' :: rest).dropWhile (fun c => !endsAuthority c) =
      text.dropWhile (fun c => !endsAuthority c) ++ '/' :: rest := by
  induction text with
  | nil => rfl
  | cons c text ih =>
      rw [List.cons_append, List.dropWhile_cons, List.dropWhile_cons]
      split
      · exact ih
      · rfl

/-- The text after the authority of a uri decides on its path, its query and its fragment. -/
theorem parse_append (h : parse text = .ok u) (hu : u.Httpx) (rest : List Char) :
    parse (text ++ '/' :: rest) = .ok { u with
      path := pathOf (afterAuthority text ++ '/' :: rest).tail
      query := queryOf (afterAuthority text ++ '/' :: rest).tail
      fragment := fragmentOf (afterAuthority text ++ '/' :: rest).tail } ∧
      u.path = pathOf (afterAuthority text).tail := by
  obtain ⟨scheme, uri, v, hcut, hw, hhttpx, hv, h⟩ := parse_of_httpx h hu
  have hafter : afterAuthority text = uri.dropWhile fun c => !endsAuthority c := by
    rw [afterAuthority, hcut]
    rfl
  have hlong := cutAt_append_of_cutAt hcut ('/' :: rest)
  rw [parse, hlong]
  dsimp only
  rw [hw, ok_bind, if_neg hhttpx.ne_file, takeWhile_append_slash, hv, ok_bind,
    dropWhile_append_slash, hafter]
  obtain ⟨username, password, host, port, rfl, -⟩ := hhttpx.parseAuthority hv
  have hv' : Httpx {
      scheme := toLower scheme
      username := username
      password := password
      hostname := toLower host
      port := port } := hhttpx
  rw [hv'.parseRest_cut rfl rfl] at h ⊢
  cases h
  exact ⟨rfl, rfl⟩

/-- A path ends at a query or a fragment, so that nothing is added to it. -/
theorem pathOf_append (h : '?' ∈ text ∨ '#' ∈ text) (rest : List Char) :
    pathOf (text ++ rest) = pathOf text := by
  by_cases hfragment : '#' ∈ text
  · have hbefore : beforeFragment (text ++ rest) = beforeFragment text := by
      cases hcut : cut '#' text with
      | none => exact absurd hfragment (notMem_of_cut_none hcut)
      | some r =>
          rw [beforeFragment, beforeFragment, cut_append_of_cut hcut, hcut]
          rfl
    rw [pathOf, pathOf, hbefore]
  · have hquery : '?' ∈ text := h.resolve_right hfragment
    have hbefore : beforeFragment (text ++ rest) = text ++ beforeFragment rest := by
      cases hcut : cut '#' rest with
      | none =>
          have hboth : '#' ∉ text ++ rest := by
            rw [List.mem_append, not_or]
            exact ⟨hfragment, notMem_of_cut_none hcut⟩
          rw [beforeFragment_of_notMem hboth, beforeFragment, hcut]
          rfl
      | some r =>
          have hnotMem : '#' ∉ text ++ r.1 := by
            rw [List.mem_append, not_or]
            exact ⟨hfragment, notMem_of_cut hcut⟩
          rw [eq_of_cut hcut, ← List.append_assoc, beforeFragment_append hnotMem,
            beforeFragment_append (notMem_of_cut hcut)]
    rw [pathOf, pathOf, hbefore, beforeFragment_of_notMem hfragment]
    cases hcut : cut '?' text with
    | none => exact absurd hquery (notMem_of_cut_none hcut)
    | some r =>
        rw [cut_append_of_cut hcut]
        rfl

/-- The text before the name of a status. -/
def statusPart : List Char :=
  ['/', 's', 't', 'a', 't', 'u', 's', '/']

/-- Neither a query nor a fragment follows the authority. -/
def Bare (text : List Char) : Prop :=
  '?' ∉ (afterAuthority text).tail ∧ '#' ∉ (afterAuthority text).tail

/-- A path that goes on to a name has the name as its leaf. -/
theorem afterLast_pathOf {text name : List Char} (hquery : '?' ∉ text) (hfragment : '#' ∉ text)
    (hname : ∀ d ∈ ['/', '?', '#'], d ∉ name) :
    afterLast '/' (pathOf (text ++ '/' :: name)) = name := by
  have hnotMem : ∀ d, d ∉ text → d ≠ '/' → d ∉ name → d ∉ text ++ '/' :: name := by
    intro d htext hd hmem
    rw [List.mem_append, List.mem_cons, not_or, not_or]
    exact ⟨htext, hd, hmem⟩
  have hpath : pathOf (text ++ '/' :: name) = text ++ '/' :: name := by
    rw [pathOf, beforeFragment_of_notMem (hnotMem '#' hfragment (by decide)
      (hname '#' (by decide))), cut_of_notMem (hnotMem '?' hquery (by decide)
        (hname '?' (by decide)))]
    rfl
  rw [hpath, afterLast_append (hname '/' (by decide))]

/-- The leaf of the uri of a status is its name, or the leaf of the base. -/
theorem leaf_status (h : parse text = .ok u) (hu : u.Httpx) {name : List Char}
    (hname : ∀ d ∈ ['/', '?', '#'], d ∉ name) :
    ∃ v, parse (text ++ statusPart ++ name) = .ok v ∧ v.Httpx ∧
      (Bare text → v.leaf = name) ∧ (¬ Bare text → v.leaf = u.leaf) := by
  obtain ⟨hparse, hpath⟩ := parse_append h hu (['s', 't', 'a', 't', 'u', 's', '/'] ++ name)
  have htext : text ++ statusPart ++ name =
      text ++ '/' :: (['s', 't', 'a', 't', 'u', 's', '/'] ++ name) := by
    rw [List.append_assoc]
    rfl
  rw [htext]
  refine ⟨_, hparse, hu, ?_, ?_⟩
  · intro hbare
    rw [leaf]
    dsimp only
    cases hafter : afterAuthority text with
    | nil =>
        have hstatus : ([] ++ '/' :: (['s', 't', 'a', 't', 'u', 's', '/'] ++ name)).tail =
            ['s', 't', 'a', 't', 'u', 's'] ++ '/' :: name := rfl
        rw [hstatus]
        exact afterLast_pathOf (by decide) (by decide) hname
    | cons c after =>
        have hstatus : (c :: after ++ '/' :: (['s', 't', 'a', 't', 'u', 's', '/'] ++ name)).tail =
            after ++ ['/', 's', 't', 'a', 't', 'u', 's'] ++ '/' :: name := by
          rw [List.append_assoc]
          rfl
        have hnotMem := hbare
        rw [Bare, hafter, List.tail_cons] at hnotMem
        rw [hstatus]
        refine afterLast_pathOf ?_ ?_ hname
        · rw [List.mem_append, not_or]
          exact ⟨hnotMem.1, by decide⟩
        · rw [List.mem_append, not_or]
          exact ⟨hnotMem.2, by decide⟩
  · intro hbare
    rw [leaf, leaf, hpath]
    dsimp only
    have hmem : '?' ∈ (afterAuthority text).tail ∨ '#' ∈ (afterAuthority text).tail := by
      by_contra hnone
      exact hbare (not_or.mp hnone)
    have hne : afterAuthority text ≠ [] := by
      intro hnil
      rw [hnil] at hmem
      rcases hmem with hmem | hmem
      · cases hmem
      · cases hmem
    rw [List.tail_append_of_ne_nil hne, pathOf_append hmem]

end Extension

end Uri

namespace Status

variable {D : Type}

/-- What `StatusManager::fetch` is asked for: a name in the store, or a `GET` of a uri. -/
inductive Fetch where
  | named (name : List Char)
  | remote (uri : List Char)

/-- `StatusImpl::parent`; `manager` says whether there is a status manager. -/
def Private.parent (s : Private D) (manager : Bool) : Except Failure (Option Fetch) :=
  if s.parentUri ≠ "" ∧ manager then do
    let uri ← Uri.parse s.parentUri.toList
    if s.baseUri ≠ "" ∧ s.baseUri.toList.isPrefixOf s.parentUri.toList then
      return some (.named uri.leaf)
    else
      return some (.remote (← uri.canonical))
  else
    return none

/-- The parent is a status of the service with the base uri `base`. -/
structure HasParent (s : Private D) (base name : List Char) : Prop where
  baseUri_ne : s.baseUri ≠ ""
  baseUri : ∃ u, Uri.parse s.baseUri.toList = .ok u ∧ u.Httpx
  parentUri : s.parentUri = String.ofList (base ++ Uri.statusPart ++ name)
  base : ∃ u, Uri.parse base = .ok u ∧ u.Httpx
  name_ne : name ≠ []
  name : ∀ d ∈ ['/', '?', '#'], d ∉ name

/-- The parent is taken from the store if and only if it has the same base uri, and otherwise it
is fetched by its uri. -/
def FindsParent (s : Private D) (base name : List Char) : Prop :=
  (s.parent true = .ok (some (.named name)) ↔ s.baseUri = String.ofList base) ∧
    (s.baseUri ≠ String.ofList base → ∃ u uri, Uri.parse s.parentUri.toList = .ok u ∧
      u.canonical = .ok uri ∧ s.parent true = .ok (some (.remote uri)))

/-- The leaf of a base uri, if it is a uri. -/
def baseLeaf (base : List Char) : Option (List Char) :=
  (Uri.parse base).toOption.map Uri.leaf

/-- The base uri is the one of the parent, and it has neither a query nor a fragment that hides
the name. Or it is another one, and no prefix of the uri of the parent. -/
def Distinguished (s : Private D) (base name : List Char) : Prop :=
  if s.baseUri = String.ofList base then Uri.Bare base ∨ baseLeaf base = some name
  else ¬ s.baseUri.toList <+: s.parentUri.toList

variable {s : Private D} {base name : List Char}

/-- What `parent` does, by the prefix of the uri. -/
theorem HasParent.parent_eq (h : HasParent s base name) :
    ∃ u uri, Uri.parse s.parentUri.toList = .ok u ∧ u.canonical = .ok uri ∧
      s.parent true = .ok (some (if s.baseUri.toList <+: s.parentUri.toList then .named u.leaf
        else .remote uri)) := by
  obtain ⟨b, hb, hhttpx⟩ := h.base
  obtain ⟨u, hu, huhttpx, -⟩ := Uri.leaf_status hb hhttpx h.name
  have htext : s.parentUri.toList = base ++ Uri.statusPart ++ name := by
    rw [h.parentUri, String.toList_ofList]
  have hne : s.parentUri ≠ "" := by
    intro hnil
    rw [hnil] at htext
    have hlength := congrArg List.length htext
    simp [Uri.statusPart] at hlength
  rw [← htext] at hu
  refine ⟨u, _, hu, huhttpx.canonical_text, ?_⟩
  rw [Private.parent, if_pos ⟨hne, rfl⟩, hu, ok_bind]
  by_cases hprefix : s.baseUri.toList <+: s.parentUri.toList
  · rw [if_pos ⟨h.baseUri_ne, List.isPrefixOf_iff_prefix.mpr hprefix⟩, if_pos hprefix]
    rfl
  · have hnot : ¬ (s.baseUri ≠ "" ∧ s.baseUri.toList.isPrefixOf s.parentUri.toList = true) :=
      fun hboth => hprefix (List.isPrefixOf_iff_prefix.mp hboth.2)
    rw [if_neg hnot, if_neg hprefix, huhttpx.canonical_text, ok_bind]
    rfl

/-- With the same base uri, the leaf is the name if and only if the base uri does not hide it. -/
theorem HasParent.leaf_iff (h : HasParent s base name) {u : Uri}
    (hu : Uri.parse s.parentUri.toList = .ok u) :
    u.leaf = name ↔ Uri.Bare base ∨ baseLeaf base = some name := by
  obtain ⟨b, hb, hhttpx⟩ := h.base
  obtain ⟨v, hv, -, hbare, hhidden⟩ := Uri.leaf_status hb hhttpx h.name
  rw [h.parentUri, String.toList_ofList, hv] at hu
  cases hu
  have hleaf : baseLeaf base = some b.leaf := by
    rw [baseLeaf, hb]
    rfl
  rw [hleaf, Option.some_inj]
  by_cases hcase : Uri.Bare base
  · exact iff_of_true (hbare hcase) (.inl hcase)
  · rw [hhidden hcase, or_iff_right hcase]

/-- A status finds its parent if and only if the base uri tells where it is. -/
theorem findsParent_iff (h : HasParent s base name) :
    FindsParent s base name ↔ Distinguished s base name := by
  obtain ⟨u, uri, hu, huri, hparent⟩ := h.parent_eq
  rw [FindsParent, Distinguished, hparent]
  by_cases hbase : s.baseUri = String.ofList base
  · have hprefix : s.baseUri.toList <+: s.parentUri.toList := by
      rw [hbase, h.parentUri, String.toList_ofList, String.toList_ofList, List.append_assoc]
      exact List.prefix_append _ _
    rw [if_pos hbase, if_pos hprefix, ← h.leaf_iff hu]
    constructor
    · intro hfinds
      have hnamed := hfinds.1.mpr hbase
      cases hnamed
      rfl
    · intro hleaf
      rw [hleaf]
      exact ⟨iff_of_true rfl hbase, fun hne => absurd hbase hne⟩
  · rw [if_neg hbase]
    by_cases hprefix : s.baseUri.toList <+: s.parentUri.toList
    · refine iff_of_false ?_ (not_not_intro hprefix)
      intro hfinds
      obtain ⟨v, text, -, -, hremote⟩ := hfinds.2 hbase
      rw [if_pos hprefix] at hremote
      cases hremote
    · refine iff_of_true ⟨iff_of_false ?_ hbase, fun _ => ⟨u, uri, hu, huri, ?_⟩⟩ hprefix
      · intro hnamed
        rw [if_neg hprefix] at hnamed
        cases hnamed
      · rw [if_neg hprefix]

/-- The uri of `http://h/v1`. -/
def sampleBase : Uri where
  scheme := Uri.http
  hostname := ['h']
  path := ['v', '1']
  port := 80

theorem parse_sampleBase : Uri.parse "http://h/v1".toList = .ok sampleBase := by
  decide

/-- A status of `http://h/v1` with the parent `p` of `base`. -/
def childOf (base : List Char) : Private Unit where
  ctime := 0
  mtime := 0
  baseUri := "http://h/v1"
  parentUri := String.ofList (base ++ Uri.statusPart ++ ['p'])

theorem hasParent_childOf {base : List Char} {u : Uri} (hbase : Uri.parse base = .ok u)
    (hu : u.Httpx) : HasParent (childOf base) base ['p'] where
  baseUri_ne := (by decide : "http://h/v1" ≠ "")
  baseUri := ⟨sampleBase, parse_sampleBase, .inl rfl⟩
  parentUri := rfl
  base := ⟨u, hbase, hu⟩
  name_ne := by decide
  name := List.forall_iff_forall_mem.mp (by decide)

theorem findsParent_sample :
    FindsParent (childOf "http://h/v1".toList) "http://h/v1".toList ['p'] := by
  refine (findsParent_iff (hasParent_childOf parse_sampleBase (.inl rfl))).mpr ?_
  rw [Distinguished, if_pos (by decide)]
  exact .inl ⟨by decide, by decide⟩

/-- The parent of `http://h/v10` is taken for a status of `http://h/v1`. -/
theorem not_findsParent : ¬ ∀ (s : Private Unit) (base name : List Char),
    HasParent s base name → FindsParent s base name := by
  intro hall
  have hparse : Uri.parse "http://h/v10".toList =
      .ok { scheme := Uri.http, hostname := ['h'], path := ['v', '1', '0'], port := 80 } := by
    decide
  have hfinds := hall _ _ _ (hasParent_childOf hparse (.inl rfl))
  obtain ⟨u, uri, -, -, hremote⟩ := hfinds.2 (by decide)
  have hnamed : (childOf "http://h/v10".toList).parent true = .ok (some (.named ['p'])) := by
    rfl
  rw [hnamed] at hremote
  cases hremote

end Status

end Gearbox
