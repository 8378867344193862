import Gearbox.Http.Client

/-!
# Header fields

The lines of a response header are read one after the other. A status line discards everything
before it, and the values of a field that occurs several times are joined by commas, where the
first value that is not empty does not get a comma in front. So what is known of a field at the end
are its values behind the last status line, in any spelling of its name. A request that is
repeated has the fields of the last attempt.
-/

namespace Gearbox

namespace Http

open Json Refinement Texts

section Source

/-- The status line of a response. -/
def isStatusLine (line : List Char) : Bool :=
  line.take 5 = ['H', 'T', 'T', 'P', '/']

/-- The name and the value of a field in a line of the header. -/
def fieldOf (line : List Char) : Option (String × List Char) :=
  (cut ':' line).map fun r => (String.ofList (Uri.toLower r.1), trim r.2)

/-- The name under which a field is stored. -/
def lowerCase (field : String) : String :=
  String.ofList (Uri.toLower field.toList)

/-- `HttpResponse::get_header` -/
def HttpResponse.getHeader (r : HttpResponse) (field : String) : Option (List Char) :=
  r.headers.lookup (lowerCase field)

/-- `HttpResponse::header` -/
def HttpResponse.header (r : HttpResponse) (field : String) : List Char :=
  (r.getHeader field).getD []

end Source

section Joined

/-- The lines behind the last status line. -/
def lastHeader : List (List Char) → List (List Char)
  | [] => []
  | line :: lines => if lines.any isStatusLine then lastHeader lines
      else if isStatusLine line then lines else line :: lines

/-- The values of a field. -/
def valuesOf (name : String) (lines : List (List Char)) : List (List Char) :=
  (lines.filterMap fieldOf).filterMap fun r => if r.1 = name then some r.2 else none

/-- The values of a field in one text. -/
def joined (values : List (List Char)) : List Char :=
  [','].intercalate (values.dropWhile (· = []))

/-- A value behind what is stored. -/
def appended (stored value : List Char) : List Char :=
  (if stored = [] then stored else stored ++ [',']) ++ value

/-- What is stored after some values. -/
def store (stored : Option (List Char)) (values : List (List Char)) : Option (List Char) :=
  if values = [] then stored else some (values.foldl appended (stored.getD []))

variable {values : List (List Char)}

theorem intercalate_append_cons (sep u v : List Char) (values : List (List Char)) :
    sep.intercalate ((u ++ v) :: values) = u ++ sep.intercalate (v :: values) := by
  cases values with
  | nil => rw [List.intercalate_singleton, List.intercalate_singleton]
  | cons w values =>
      rw [List.intercalate_cons_cons, List.intercalate_cons_cons]
      simp only [List.append_assoc]

theorem foldl_appended {stored : List Char} (hstored : stored ≠ []) :
    values.foldl appended stored = [','].intercalate (stored :: values) := by
  induction values generalizing stored with
  | nil => exact List.intercalate_singleton.symm
  | cons v values ih =>
      have hnext : appended stored v = stored ++ [','] ++ v := by
        rw [appended, if_neg hstored]
      have hne : appended stored v ≠ [] := by
        rw [hnext]
        simp
      rw [List.foldl_cons, ih hne, hnext, intercalate_append_cons, List.intercalate_cons_cons]

/-- The values are joined, apart from those at the beginning that are empty. -/
theorem foldl_appended_nil (values : List (List Char)) :
    values.foldl appended [] = joined values := by
  induction values with
  | nil => rfl
  | cons v values ih =>
      have hfirst : appended [] v = v := by
        rw [appended, if_pos rfl, List.nil_append]
      rw [List.foldl_cons, hfirst, joined]
      by_cases hv : v = []
      · rw [List.dropWhile_cons_of_pos (by simpa using hv), hv]
        exact ih
      · rw [List.dropWhile_cons_of_neg (by simpa using hv)]
        exact foldl_appended hv

theorem store_cons (stored : Option (List Char)) (v : List Char) (values : List (List Char)) :
    store (some (appended (stored.getD []) v)) values = store stored (v :: values) := by
  rw [store, store, if_neg (List.cons_ne_nil v values)]
  split
  · rename_i hnil
    rw [hnil]
    rfl
  · rfl

end Joined

section Lines

variable {line : List Char} {lines : List (List Char)} {headers : Headers} {name : String}

theorem readResponseHeaders_eq (headers : Headers) (line : List Char) :
    readResponseHeaders headers line =
      if isStatusLine line then []
      else
        match fieldOf line with
        | none => headers
        | some r => Assoc.assign r.1 (appended ((headers.lookup r.1).getD []) r.2) headers := by
  rw [readResponseHeaders, isStatusLine, fieldOf]
  by_cases hstatus : line.take 5 = ['H', 'T', 'T', 'P', '/']
  · rw [if_pos hstatus, if_pos (decide_eq_true hstatus)]
  · rw [if_neg hstatus, if_neg (by simpa using hstatus)]
    cases cut ':' line with
    | none => rfl
    | some r => rfl

/-- The lines of one header. -/
theorem lookup_foldl (hstatus : ∀ line ∈ lines, isStatusLine line = false) (headers : Headers)
    (name : String) :
    (lines.foldl readResponseHeaders headers).lookup name =
      store (headers.lookup name) (valuesOf name lines) := by
  induction lines generalizing headers with
  | nil => rfl
  | cons line lines ih =>
      have hrest := ih fun l hl => hstatus l (List.mem_cons_of_mem line hl)
      have hline : ¬ isStatusLine line = true := by
        rw [hstatus line List.mem_cons_self]
        exact Bool.false_ne_true
      rw [List.foldl_cons, hrest, readResponseHeaders_eq, if_neg hline, valuesOf, valuesOf,
        List.filterMap_cons]
      cases hfield : fieldOf line with
      | none => rfl
      | some r =>
          dsimp only
          rw [Assoc.lookup_assign, List.filterMap_cons]
          by_cases hname : r.1 = name
          · rw [if_pos hname.symm, if_pos hname, hname]
            exact store_cons _ _ _
          · rw [if_neg fun h => hname h.symm, if_neg hname]

/-- What is in front of a status line does not matter. -/
theorem foldl_of_any (h : lines.any isStatusLine = true) (headers headers' : Headers) :
    lines.foldl readResponseHeaders headers = lines.foldl readResponseHeaders headers' := by
  induction lines generalizing headers headers' with
  | nil => cases h
  | cons line lines ih =>
      rw [List.foldl_cons, List.foldl_cons]
      by_cases hline : isStatusLine line = true
      · rw [readResponseHeaders_eq, if_pos hline, readResponseHeaders_eq, if_pos hline]
      · rw [List.any_cons, Bool.or_eq_true, or_iff_right hline] at h
        exact ih h _ _

theorem foldl_lastHeader (lines : List (List Char)) :
    lines.foldl readResponseHeaders [] = (lastHeader lines).foldl readResponseHeaders [] ∧
      ∀ line ∈ lastHeader lines, isStatusLine line = false := by
  induction lines with
  | nil => exact ⟨rfl, fun line hline => by cases hline⟩
  | cons line lines ih =>
      rw [lastHeader, List.foldl_cons]
      by_cases hany : lines.any isStatusLine = true
      · rw [if_pos hany, ← ih.1]
        exact ⟨foldl_of_any hany _ _, ih.2⟩
      · have hnone : ∀ l ∈ lines, isStatusLine l = false := by
          intro l hl
          by_contra hl'
          rw [Bool.not_eq_false] at hl'
          exact hany (List.any_eq_true.mpr ⟨l, hl, hl'⟩)
        rw [if_neg hany]
        by_cases hline : isStatusLine line = true
        · rw [if_pos hline, readResponseHeaders_eq, if_pos hline]
          exact ⟨rfl, hnone⟩
        · rw [if_neg hline]
          refine ⟨rfl, List.forall_mem_cons.mpr ⟨?_, hnone⟩⟩
          rwa [Bool.not_eq_true] at hline

/-- A field has the values behind the last status line. -/
theorem lookup_response (lines : List (List Char)) (name : String) :
    (lines.foldl readResponseHeaders []).lookup name =
      if valuesOf name (lastHeader lines) = [] then none
      else some (joined (valuesOf name (lastHeader lines))) := by
  obtain ⟨hfold, hstatus⟩ := foldl_lastHeader lines
  rw [hfold, lookup_foldl hstatus, store, List.lookup_nil, Option.getD_none, foldl_appended_nil]

end Lines

section Response

/-- The lines of the headers that an attempt receives. -/
def Attempt.lines (a : Attempt) : List (List Char) :=
  a.events.filterMap fun e =>
    match e with
    | .header line => some line
    | _ => none

theorem Attempt.headers_eq (a : Attempt) : a.headers = a.lines.foldl readResponseHeaders [] := by
  rw [Attempt.headers, Attempt.lines]
  generalize ([] : Headers) = headers
  induction a.events generalizing headers with
  | nil => rfl
  | cons e events ih =>
      rw [List.foldl_cons, ih]
      cases e <;> rfl

variable {op : Operation} {client : Private} {q : Request} {attempts : List Attempt}
  {r : HttpResponse} {s : Session}

/-- After a method has returned, a field has the values that the last attempt received for it
behind its last status line. -/
theorem header_of_run (h : op.run client q attempts = some (.ok r, s, [])) (field : String) :
    ∀ last ∈ attempts.getLast?,
      r.header field = joined (valuesOf (lowerCase field) (lastHeader last.lines)) := by
  intro last hlast
  rw [HttpResponse.header, HttpResponse.getHeader, response_of_run h last hlast]
  dsimp only
  rw [last.headers_eq, lookup_response]
  split
  · rename_i hnil
    rw [hnil]
    rfl
  · rfl

/-- The connection is lost behind a first header. The second attempt is redirected, and its last
header has a field twice. -/
def redirected : List Attempt :=
  [{ events := [.header "HTTP/1.1 200 OK".toList, .header "Via: a".toList],
      result := curleRecvError, code := 0 },
    { events := [.header "HTTP/1.1 301 Moved".toList, .header "Via: b".toList,
        .header "HTTP/1.1 200 OK".toList, .header "Via: c".toList, .header "VIA: d ".toList],
      result := 0, code := 200 }]

theorem header_of_run_redirected :
    ∃ r s, Operation.getString.run {} sampleRequest redirected = some (.ok r, s, []) ∧
      r.header "via" = "c,d".toList := by
  have hrun : Operation.getString.run {} sampleRequest redirected =
      some (.ok { code := 200, headers := [("via", "c,d".toList)] },
        { curl := true, content := [], body := [] }, []) := by rfl
  exact ⟨_, _, hrun, header_of_run hrun "via" _ rfl⟩

end Response

end Http

end Gearbox
