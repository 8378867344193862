import Gearbox.Worker.Propagation
import Gearbox.Worker.RunJob

/-!
# Errors over several hops

A worker that runs a synchronous job puts the text and the code of an exception into its response.
The client of the job makes an exception of the response again, with `throw_from_code`, and the
client may be the handler of another worker. In the end the HTTP server makes an exception of the
last response and sends its text and its code.

The text of an `Error` has the name of its class and the code in front, unless it begins with the
name already, and the buffer for it has 512 bytes. So the class is named once, however many workers
the error has passed, and what the HTTP server sends does not depend on their number. The exception
are codes below 400 without a class, which the server does not take for errors while a worker does.

The texts are those of ASCII characters: a character is a byte, and the response can be decoded
wherever the buffer has cut the text.
-/

namespace Gearbox

namespace Worker

open Refinement

/-- The classes of `DEFINE_ERROR` by their codes. -/
def errorNames : List (ℤ × String) :=
  [(300, "MULTIPLE_CHOICES"), (301, "MOVED_PERMANENTLY"), (302, "MOVED_TEMPORARILY"),
   (303, "SEE_OTHER"), (304, "NOT_MODIFIED"), (305, "USE_PROXY"), (307, "TEMPORARY_REDIRECT"),
   (400, "BAD_REQUEST"), (401, "UNAUTHORIZED"), (402, "PAYMENT_REQUIRED"), (403, "FORBIDDEN"),
   (404, "NOT_FOUND"), (405, "METHOD_NOT_ALLOWED"), (406, "NOT_ACCEPTABLE"),
   (407, "PROXY_AUTHENTICATION_REQUIRED"), (408, "REQUEST_TIME_OUT"), (409, "CONFLICT"),
   (410, "GONE"), (411, "LENGTH_REQUIRED"), (412, "PRECONDITION_FAILED"),
   (413, "REQUEST_ENTITY_TOO_LARGE"), (414, "REQUEST_URI_TOO_LARGE"),
   (415, "UNSUPPORTED_MEDIA_TYPE"), (416, "RANGE_NOT_SATISFIABLE"), (417, "EXPECTATION_FAILED"),
   (422, "UNPROCESSABLE_ENTITY"), (423, "LOCKED"), (424, "FAILED_DEPENDENCY"),
   (426, "UPGRADE_REQUIRED"), (500, "INTERNAL_SERVER_ERROR"), (501, "NOT_IMPLEMENTED"),
   (502, "BAD_GATEWAY"), (503, "SERVICE_UNAVAILABLE"), (504, "GATEWAY_TIME_OUT"),
   (505, "VERSION_NOT_SUPPORTED"), (506, "VARIANT_ALSO_VARIES"), (507, "INSUFFICIENT_STORAGE"),
   (510, "NOT_EXTENDED")]

section Errors

/-- What the constructor of `Error` puts into its buffer. -/
def errorText (msg : List Char) (code : ℤ) (name : List Char) : List Char :=
  let header := if name.isPrefixOf msg then [] else name ++ s!" [{code}]: ".toList
  let text := if msg = [] then "Unknown Error".toList else msg
  ((header ++ text).takeWhile (· ≠ '\x00')).take 511

/-- The constructor of `Error`. -/
def mkError (msg : String) (code : ℤ) (name : String) : Exn :=
  .error (String.ofList (errorText msg.toList code name.toList)) name code

/-- The class of a code. -/
def errorName (code : ℤ) : ℤ × String :=
  match errorNames.lookup code with
  | some name => (code, name)
  | none => (500, "INTERNAL_SERVER_ERROR")

/-- `throw_from_code` -/
def throwFromCode (code : ℤ) (msg : String) : Exn :=
  mkError msg (errorName code).1 (errorName code).2

end Errors

section Hop

/-- The response of a worker: what is left of the run of a job. -/
def reply (o : Outcomes) : Content :=
  (outcome (runJob o) {}).2.content

/-- What `create_status` and its like throw for the response to a synchronous job. -/
def clientError (c : Content) : Option Exn :=
  let s := Propagation.runSync ⟨.running, 0, 0, []⟩ c.code c.message
  if s.code > 0 then s.messages.head?.map fun msg => throwFromCode s.code msg else none

/-- The status and the text that the HTTP server sends for the response, if it is an error. -/
def errorResponse (c : Content) : Option (ℤ × String) :=
  let s := Propagation.runSync ⟨.running, 0, 0, []⟩ c.code c.message
  if c.code ≥ 400 then
    s.messages.head?.map fun msg =>
      ((throwFromCode c.code msg).content.code, (throwFromCode c.code msg).content.message)
  else none

/-- The first block of a run throws the exception, and it is caught. -/
def Fails (o : Outcomes) (e : Exn) : Prop :=
  ∃ v, outcome (attempt o) {} = (.error e, v) ∧ (v.responseStatus = true → v.job = true) ∧
    o.Rescues e v.responseStatus

/-- The worker has failed because of an exception of another worker, so many hops away. -/
inductive Chain (e : Exn) : ℕ → Outcomes → Prop where
  | last {o : Outcomes} (fails : Fails o e) : Chain e 0 o
  | hop {o o' : Outcomes} {n : ℕ} {e' : Exn} (chain : Chain e n o)
      (thrown : clientError (reply o) = some e') (fails : Fails o' e') : Chain e (n + 1) o'

end Hop

section Text

variable {msg name : List Char} {code : ℤ}

theorem errorText_of_begins (hname : name ≠ []) (h : name <+: msg) :
    errorText msg code name = (msg.takeWhile (· ≠ '\x00')).take 511 := by
  have hmsg : msg ≠ [] := by
    rintro rfl
    exact hname (List.prefix_nil.mp h)
  rw [errorText, if_pos (List.isPrefixOf_iff_prefix.mpr h), if_neg hmsg]
  rfl

/-- The text begins with the name. -/
theorem prefix_errorText (hname : name ≠ []) (hnul : ∀ c ∈ name, c ≠ '\x00')
    (hlength : name.length ≤ 511) : name <+: errorText msg code name := by
  have hcut : ∀ rest, name <+: ((name ++ rest).takeWhile (· ≠ '\x00')).take 511 := by
    intro rest
    have htake : (name ++ rest).takeWhile (· ≠ '\x00') =
        name ++ rest.takeWhile (· ≠ '\x00') :=
      List.takeWhile_append_of_pos fun c hc => decide_eq_true (hnul c hc)
    rw [htake]
    exact List.prefix_take_iff.mpr ⟨List.prefix_append _ _, hlength⟩
  by_cases h : name <+: msg
  · obtain ⟨rest, rfl⟩ := h
    rw [errorText_of_begins hname (List.prefix_append _ _)]
    exact hcut rest
  · have hprefix : ¬ name.isPrefixOf msg = true := fun hp => h (List.isPrefixOf_iff_prefix.mp hp)
    rw [errorText, if_neg hprefix, List.append_assoc]
    exact hcut _

/-- The text is made once. -/
theorem errorText_errorText (hname : name ≠ []) (hnul : ∀ c ∈ name, c ≠ '\x00')
    (hlength : name.length ≤ 511) (code code' : ℤ) :
    errorText (errorText msg code name) code' name = errorText msg code name := by
  have hprefix : name <+: errorText msg code name := prefix_errorText hname hnul hlength
  have hclean : (errorText msg code name).takeWhile (· ≠ '\x00') = errorText msg code name := by
    refine List.takeWhile_eq_self_iff.mpr fun c hc => ?_
    rw [errorText] at hc
    have hmem := List.mem_of_mem_take hc
    exact List.mem_takeWhile_imp (p := fun x => decide (x ≠ '\x00')) hmem
  have hshort : (errorText msg code name).length ≤ 511 := List.length_take_le _ _
  rw [errorText_of_begins hname hprefix, hclean, List.take_of_length_le hshort]

/-- The characters of the text. -/
theorem mem_errorText {c : Char} (h : c ∈ errorText msg code name) :
    c ∈ msg ∨ c ∈ name ∨ c ∈ s!" [{code}]: ".toList ∨ c ∈ "Unknown Error".toList := by
  have hmem := (List.takeWhile_prefix _).subset (List.mem_of_mem_take h)
  rw [List.mem_append] at hmem
  rcases hmem with hheader | htext
  · split at hheader
    · cases hheader
    · rw [List.mem_append] at hheader
      rcases hheader with hc | hc
      · exact Or.inr (Or.inl hc)
      · exact Or.inr (Or.inr (Or.inl hc))
  · split at htext
    · exact Or.inr (Or.inr (Or.inr htext))
    · exact Or.inl htext

end Text

section Classes

/-- The class of a code is one of the table, for any code. -/
theorem errorName_mem (code : ℤ) : errorName code ∈ errorNames := by
  rw [errorName]
  cases h : errorNames.lookup code with
  | none =>
      have hmem : ((500 : ℤ), "INTERNAL_SERVER_ERROR") ∈ errorNames := by decide
      exact hmem
  | some name =>
      obtain ⟨before, after, hsplit, -⟩ := List.lookup_eq_some_iff.mp h
      have hmem : (code, name) ∈ before ++ (code, name) :: after :=
        List.mem_append_right before List.mem_cons_self
      rwa [← hsplit] at hmem

theorem errorNames_sound : ∀ r ∈ errorNames, r.2.toList ≠ [] ∧
    (∀ c ∈ r.2.toList ++ s!" [{r.1}]: ".toList, c ≠ '\x00' ∧ c.toNat < 128) ∧
      r.2.toList.length ≤ 511 ∧ errorName r.1 = r ∧ 300 ≤ r.1 := by
  have hall : (errorNames.all fun r => decide (r.2.toList ≠ []) &&
      ((r.2.toList ++ s!" [{r.1}]: ".toList).all fun c => c ≠ '\x00' && c.toNat < 128) &&
      decide (r.2.toList.length ≤ 511) && decide (errorName r.1 = r) && decide (300 ≤ r.1)) =
        true := by decide +kernel
  simpa only [List.all_eq_true, Bool.and_eq_true, decide_eq_true_eq, and_assoc] using hall

variable {r : ℤ × String} {e : Exn} {msg : String} {code : ℤ}

theorem ne_nul_of_mem (hr : r ∈ errorNames) : ∀ c ∈ r.2.toList, c ≠ '\x00' := fun c hc =>
  ((errorNames_sound r hr).2.1 c (List.mem_append_left _ hc)).1

theorem content_mkError (msg : String) (r : ℤ × String) : (mkError msg r.1 r.2).content =
    ⟨String.ofList (errorText msg.toList r.1 r.2.toList), r.2, r.1⟩ := rfl

/-- An error of a class is made again as it is. -/
theorem throwFromCode_mkError (hr : r ∈ errorNames) (msg : String) :
    throwFromCode (mkError msg r.1 r.2).content.code (mkError msg r.1 r.2).content.message =
      mkError msg r.1 r.2 := by
  obtain ⟨hname, -, hlength, hclass, -⟩ := errorNames_sound r hr
  rw [content_mkError, throwFromCode, hclass, mkError, String.toList_ofList,
    errorText_errorText hname (ne_nul_of_mem hr) hlength]
  rfl

/-- The text of an error of a class. -/
theorem text_mkError (hr : r ∈ errorNames) (hascii : ∀ c ∈ msg.toList, c.toNat < 128) :
    r.2.toList <+: (mkError msg r.1 r.2).content.message.toList ∧
      (mkError msg r.1 r.2).content.message.toList.length ≤ 511 ∧
      ∀ c ∈ (mkError msg r.1 r.2).content.message.toList, c.toNat < 128 := by
  obtain ⟨hname, hchars, hlength, -, -⟩ := errorNames_sound r hr
  rw [content_mkError, String.toList_ofList]
  refine ⟨prefix_errorText hname (ne_nul_of_mem hr) hlength, List.length_take_le _ _, ?_⟩
  intro c hc
  rcases mem_errorText hc with hmsg | hr | hheader | hunknown
  · exact hascii c hmsg
  · exact (hchars c (List.mem_append_left _ hr)).2
  · exact (hchars c (List.mem_append_right _ hheader)).2
  · have hall : ("Unknown Error".toList.all fun c => c.toNat < 128) = true := by decide
    exact of_decide_eq_true (List.all_eq_true.mp hall c hunknown)

end Classes

section Responses

variable {c : Content} {o o' : Outcomes} {e e' : Exn} {n : ℕ} {P : Vars → Prop}

theorem clientError_eq (c : Content) :
    clientError c = if c.code ≥ 300 then some (throwFromCode c.code c.message) else none := by
  rw [clientError, Propagation.runSync]
  split
  · rename_i hcode
    have hpos : c.code > 0 := by omega
    exact if_pos hpos
  · exact if_neg (Int.lt_irrefl 0)

theorem errorResponse_eq (c : Content) :
    errorResponse c =
      if c.code ≥ 400 then
        some ((throwFromCode c.code c.message).content.code,
          (throwFromCode c.code c.message).content.message)
      else none := by
  rw [errorResponse]
  split
  · rename_i hcode
    have hfailed : c.code ≥ 300 := by omega
    rw [Propagation.runSync, if_pos hfailed]
    rfl
  · rfl

/-- What follows the first block leaves the response alone. -/
theorem keeps_content_conclude (o : Outcomes) (c : Content) :
    Keeps (fun v : Vars => v.content = c) (conclude o) := by
  have hget : ∀ {β : Type} {f : Vars → Code Vars Exn β},
      (∀ v, Keeps (fun v : Vars => v.content = c) (f v)) →
        Keeps (fun v : Vars => v.content = c) (get >>= f) := fun hf =>
    Keeps.bind (fun _ h => h) hf
  have hlogged : ∀ e, Keeps (fun v : Vars => v.content = c) (logged e) := by
    intro e v hv
    rw [outcome_logged]
    exact hv
  have hrequeue : Keeps (fun v : Vars => v.content = c) (requeue o) := by
    refine hget fun v => ?_
    split
    · exact Keeps.bind (keeps_lift _) fun _ _ h => h
    · exact keeps_pure _
  have hsettle : Keeps (fun v : Vars => v.content = c) (settle o) := by
    refine hget fun v => Keeps.bind (Keeps.tryCatch ?_ fun _ => keeps_pure _) fun _ => ?_
    · split
      · exact keeps_lift _
      · exact keeps_pure _
    · split
      · exact Keeps.tryCatch (keeps_lift _) hlogged
      · exact keeps_pure _
  have hstop : Keeps (fun v : Vars => v.content = c) (stop o) := by
    refine hget fun v => ?_
    split
    · exact Keeps.bind (fun _ h => h) fun _ => keeps_lift _
    · exact keeps_pure _
  have hafterwards : Keeps (fun v : Vars => v.content = c) (afterwards o) := by
    intro v hv
    obtain ⟨r, hr⟩ := outcome_afterwards o v
    rw [hr]
    exact hv
  exact Keeps.bind hrequeue fun _ => Keeps.bind hsettle fun _ => Keeps.bind hstop fun _ =>
    hafterwards

/-- The response of a worker that has failed. -/
theorem Fails.content_reply (h : Fails o e) : reply o = e.content := by
  obtain ⟨v, hattempt, hjob, hrescues⟩ := h
  have hrun : outcome (tryCatch (attempt o) (rescue o)) {} = (.ok (), v.rescued e) := by
    rw [outcome_tryCatch, hattempt]
    exact outcome_rescue hjob hrescues
  rw [reply, runJob, outcome_bind_ok hrun]
  exact keeps_content_conclude o e.content _ rfl

/-- The response after any number of hops. -/
theorem Chain.content_reply (h : Chain e n o) :
    reply o = if n = 0 then e.content
      else (throwFromCode e.content.code e.content.message).content := by
  induction h with
  | last fails => exact fails.content_reply
  | @hop o o' n e' chain thrown fails ih =>
      rw [clientError_eq] at thrown
      split at thrown
      · have he' := Option.some.inj thrown
        rw [fails.content_reply, if_neg (Nat.succ_ne_zero n), ← he', ih]
        split
        · rfl
        · exact congrArg Exn.content (throwFromCode_mkError (errorName_mem _) _)
      · cases thrown

/-- What the HTTP server makes of the response after any number of hops. -/
theorem Chain.errorResponse_reply (h : Chain e n o) :
    errorResponse (reply o) =
      if (if n = 0 then e.content.code else (errorName e.content.code).1) ≥ 400 then
        some ((throwFromCode e.content.code e.content.message).content.code,
          (throwFromCode e.content.code e.content.message).content.message)
      else none := by
  rw [h.content_reply, errorResponse_eq]
  split
  · rfl
  · have hagain := throwFromCode_mkError (errorName_mem e.content.code) e.content.message
    rw [← throwFromCode] at hagain
    rw [hagain]
    rfl

/-- The HTTP server sends the same however many workers the error has passed, unless it is one of
the errors below 400 without a class. It sends a code of the table, and a text that begins with the
name of its class and fits into the buffer. -/
theorem errorResponse_chain (h : Chain e n o)
    (hascii : ∀ c ∈ e.content.message.toList, c.toNat < 128) :
    (errorResponse (reply o) = errorResponse e.content ↔
      n = 0 ∨ 400 ≤ e.content.code ∨ e.content.code ∈ errorNames.map Prod.fst) ∧
    ∀ status text, errorResponse (reply o) = some (status, text) →
      ∃ r ∈ errorNames, status = r.1 ∧ r.2.toList <+: text.toList ∧
        text.toList.length ≤ 511 ∧ ∀ c ∈ text.toList, c.toNat < 128 := by
  have hmem := errorName_mem e.content.code
  rw [h.errorResponse_reply]
  constructor
  · rw [errorResponse_eq]
    by_cases hn : n = 0
    · rw [if_pos hn]
      exact iff_of_true rfl (Or.inl hn)
    · rw [if_neg hn, or_iff_right hn]
      by_cases hclass : e.content.code ∈ errorNames.map Prod.fst
      · have hcode : (errorName e.content.code).1 = e.content.code := by
          obtain ⟨r, hr, hcode⟩ := List.mem_map.mp hclass
          rw [← hcode, (errorNames_sound r hr).2.2.2.1]
        rw [hcode]
        exact iff_of_true rfl (Or.inr hclass)
      · have hcode : (errorName e.content.code).1 = 500 := by
          rw [errorName]
          cases hlookup : errorNames.lookup e.content.code with
          | none => rfl
          | some name =>
              obtain ⟨before, after, hsplit, -⟩ := List.lookup_eq_some_iff.mp hlookup
              refine absurd ?_ hclass
              rw [hsplit, List.map_append, List.mem_append]
              exact Or.inr List.mem_cons_self
        rw [hcode, if_pos (by decide), or_iff_left hclass]
        by_cases hle : 400 ≤ e.content.code
        · rw [if_pos hle]
          exact iff_of_true rfl hle
        · rw [if_neg hle]
          refine iff_of_false ?_ hle
          intro heq
          cases heq
  · intro status text hsome
    by_cases hcode : (if n = 0 then e.content.code else (errorName e.content.code).1) ≥ 400
    · rw [if_pos hcode] at hsome
      obtain ⟨rfl, rfl⟩ := Prod.mk.inj (Option.some.inj hsome)
      exact ⟨_, hmem, rfl, text_mkError hmem hascii⟩
    · rw [if_neg hcode] at hsome
      cases hsome

/-- A worker whose handler throws, and nothing else fails. -/
def failing (e : Exn) : Outcomes where
  name := "do_get_stuff_v1"
  statusName := "st-1"
  decompress := .ok ()
  parse := .ok ()
  baseUri := .ok ()
  decode := .ok false
  hasStatus := .ok false
  fetch := .ok ()
  create := .ok ()
  respond := .ok ()
  starting := .ok ()
  logEnter := .ok ()
  pushArgument := .ok ()
  parentUri := .ok ()
  state := .ok .running
  setRunning := .ok true
  sync := .ok .running
  event _ := .ok ()
  childUri := .ok ()
  preRequest := .ok ()
  checkpoint := .ok ()
  handler := .error e
  delay := .ok ()
  rollback := .ok ()
  progress := .ok 0
  addMessage := .ok ()
  fail := .ok ()
  success := .ok ()
  finalState := .ok .completed
  isSuccess := .ok false
  stopping := .ok ()
  retry := .ok ()
  postRequest := .ok ()

theorem fails_failing (what name : String) (code : ℤ) :
    Fails (failing (.error what name code)) (.error what name code) := by
  refine ⟨_, rfl, fun _ => rfl, ?_, ?_⟩
  · rintro ⟨⟩
  · rintro ⟨⟩

/-- An error of a class passes any number of such workers. -/
theorem chain_failing {r : ℤ × String} (hr : r ∈ errorNames) (msg : String) (n : ℕ) :
    Chain (mkError msg r.1 r.2) n (failing (mkError msg r.1 r.2)) := by
  have hfails : Fails (failing (mkError msg r.1 r.2)) (mkError msg r.1 r.2) :=
    fails_failing _ _ _
  induction n with
  | zero => exact .last hfails
  | succ n ih =>
      refine .hop ih ?_ hfails
      have hcode : (mkError msg r.1 r.2).content.code ≥ 300 := (errorNames_sound r hr).2.2.2.2
      rw [hfails.content_reply, clientError_eq, if_pos hcode, throwFromCode_mkError hr]

theorem errorResponse_chain_failing :
    (errorResponse (reply (failing (mkError "no such status" 404 "NOT_FOUND"))) =
        errorResponse (mkError "no such status" 404 "NOT_FOUND").content ↔
      2 = 0 ∨ 400 ≤ (mkError "no such status" 404 "NOT_FOUND").content.code ∨
        (mkError "no such status" 404 "NOT_FOUND").content.code ∈ errorNames.map Prod.fst) ∧
    ∀ status text,
      errorResponse (reply (failing (mkError "no such status" 404 "NOT_FOUND"))) =
        some (status, text) →
      ∃ r ∈ errorNames, status = r.1 ∧ r.2.toList <+: text.toList ∧
        text.toList.length ≤ 511 ∧ ∀ c ∈ text.toList, c.toNat < 128 := by
  have hall : ((mkError "no such status" 404 "NOT_FOUND").content.message.toList.all
      fun c => c.toNat < 128) = true := by decide
  exact errorResponse_chain (chain_failing (r := (404, "NOT_FOUND")) (by decide) "no such status" 2)
    fun c hc => of_decide_eq_true (List.all_eq_true.mp hall c hc)

end Responses

end Worker

end Gearbox
