import Gearbox.Assoc.Sorted
import Gearbox.Refinement.Meets
import Gearbox.Uri.Parse

/-!
# The HTTP client

The methods of `HttpClient` run `curl` until a request ends without a failure that is tried
again. The request body is a stream or a file that all attempts read, and the response goes
to a string, which is cleared before each attempt, or to a file, which is opened once before
the loop.

What `curl` does is an `Attempt`: the callbacks that it makes and its result. A method ends
after some of the attempts, or it needs more of them (`loop`). The retries are invisible if
and only if the attempts before the last one have left the stream and the file alone
(`invisible_iff`).
-/

namespace Gearbox

namespace Http

open Json Refinement Texts

/-- `HttpClient::method_t` -/
inductive Method where
  | get
  | delete
  | post
  | put
  | head
  | unknown
  deriving DecidableEq

/-- The exceptions of the client; `retryTimeout` and `retryConnect` are caught. -/
inductive HttpError where
  | retryTimeout (what : String)
  | retryConnect (what : String)
  | client (what : String)
  | other (e : Failure)

/-- An exception that is caught in the loop. -/
def HttpError.retried : HttpError → Bool
  | .retryTimeout _ | .retryConnect _ => true
  | .client _ | .other _ => false

/-- The text of an `HttpClientError`, in a buffer of 512 bytes. -/
def clientError (msg : String) : String :=
  String.ofList (("HttpClient Error: " ++ msg).toList.take 511)

/-- `CURLcode`, as far as it is looked at. -/
def curleCouldntResolveHost : ℕ := 6
def curleCouldntConnect : ℕ := 7
def curlePartialFile : ℕ := 18
def curleOperationTimedout : ℕ := 28
def curleGotNothing : ℕ := 52
def curleSendError : ℕ := 55
def curleRecvError : ℕ := 56

/-- `header_map_t` -/
abbrev Headers : Type :=
  List (String × List Char)

structure HttpResponse where
  code : ℤ
  headers : Headers := []

/-- A callback of `curl`: a line of the response header, a request for the next bytes of
the body, or bytes of the response. -/
inductive Event where
  | header (line : List Char)
  | read (size : ℕ)
  | write (bytes : List UInt8)

/-- What `curl` does in one attempt: if it can be initialised, its callbacks, its result
with the text of the error, and the code of the response. -/
structure Attempt where
  init : Bool := true
  events : List Event
  result : ℕ
  message : String := ""
  code : ℤ

/-- `HttpClient::Private`, without what is only passed on to `curl`. -/
structure Private where
  attempts : Method → ℤ := fun m =>
    match m with
    | .get | .head => 3
    | .delete | .post | .put => 1
    | .unknown => 0
  connectAttempts : ℤ := 10
  curl : Bool := false

/-- Where the response goes. -/
inductive Sink where
  | none
  | string
  | file
  deriving DecidableEq

/-- The state of a call: the string or the file with the response, what is left of the body,
and what was left of it at the start of each attempt. -/
structure Session where
  curl : Bool
  content : List UInt8
  body : List UInt8
  offered : List (List UInt8) := []

abbrev HttpM : Type → Type :=
  Code Session HttpError

section Callbacks

/-- `boost::trim` -/
def trim (text : List Char) : List Char :=
  ((text.dropWhile Uri.isSpace).reverse.dropWhile Uri.isSpace).reverse

/-- `_read_response_headers` -/
def readResponseHeaders (headers : Headers) (line : List Char) : Headers :=
  if line.take 5 = ['H', 'T', 'T', 'P', '/'] then
    []
  else
    match cut ':' line with
    | none => headers
    | some (field, value) =>
      let field := String.ofList (Uri.toLower field)
      let stored := (headers.lookup field).getD []
      let stored := if stored = [] then stored else stored ++ [',']
      Assoc.assign field (stored ++ trim value) headers

/-- `_read_response`, `_write_file`, `_read_file` and `_read_stream`: bytes are appended to
the response and taken from the body. -/
def callback (sink : Sink) (s : Headers × Session) : Event → Headers × Session
  | .header line => (readResponseHeaders s.1 line, s.2)
  | .read size => (s.1, { s.2 with body := s.2.body.drop size })
  | .write bytes =>
    if sink = .none then s else (s.1, { s.2 with content := s.2.content ++ bytes })

end Callbacks

section Methods

/-- How a method sets a request up. -/
structure Setup where
  method : Method
  hasBody : Bool
  sink : Sink

/-- `HttpClient::Private::setup_curl`, where a handle that exists is reset. -/
def setupCurl (method : Method) (a : Attempt) : HttpM Unit := do
  if !(← get).curl then
    modify fun s => { s with curl := a.init }
  if !(← get).curl then
    throw (.client (clientError "Could not initialize libcurl."))
  if method = .unknown then
    throw (.client (clientError "setup got a nonsensical method!"))

/-- `setup_request_from_string` and `setup_request_from_file` -/
def setupRequestFrom : HttpM Unit :=
  modify fun s => { s with offered := s.offered ++ [s.body] }

/-- `setup_request_to_string` -/
def setupRequestToString : HttpM Unit :=
  modify fun s => { s with content := [] }

/-- `curl_easy_perform` -/
def perform (sink : Sink) (a : Attempt) : HttpM Headers :=
  Code.mk fun s =>
    let r := a.events.foldl (callback sink) ([], s)
    (.ok r.1, r.2)

/-- The exception for a result of `curl` that is not 0. -/
def resultError (result : ℕ) (error : String) : HttpError :=
  if result = curleOperationTimedout ∨ result = curleGotNothing ∨ result = curleSendError ∨
      result = curleRecvError ∨ result = curlePartialFile then
    .retryTimeout (clientError error)
  else if result = curleCouldntConnect ∨ result = curleCouldntResolveHost then
    .retryConnect (clientError error)
  else
    .client (clientError error)

/-- `HttpClient::Private::make_request` -/
def makeRequest (sink : Sink) (uri : Uri) (a : Attempt) : HttpM HttpResponse := do
  let uristr ← liftM (uri.canonical.mapError HttpError.other)
  let headers ← perform sink a
  if a.result ≠ 0 then
    throw (resultError a.result ("Error connecting to " ++ String.ofList uristr ++ ": " ++
      a.message ++ " [code " ++ toString a.result ++ "]"))
  return { code := a.code, headers := headers }

/-- The body of the `try` of a method. -/
def request (op : Setup) (uri : Uri) (a : Attempt) : HttpM HttpResponse := do
  setupCurl op.method a
  if op.hasBody then
    setupRequestFrom
  if op.sink = .string then
    setupRequestToString
  makeRequest op.sink uri a

/-- The loop of a method, over what `curl` does one attempt after the other. It returns the
attempts that are left, and nothing if it needs more of them. -/
def loop (op : Setup) (uri : Uri) (timeoutRetry connectRetry : ℤ) (attempts : List Attempt)
    (s : Session) : Option (Except HttpError HttpResponse × Session × List Attempt) :=
  if timeoutRetry ≠ 0 ∧ connectRetry ≠ 0 then
    match attempts with
    | [] => none
    | a :: rest =>
      match outcome (request op uri a) s with
      | (.error (.retryTimeout what), s') =>
        if timeoutRetry - 1 = 0 then some (.error (.retryTimeout what), s', rest)
        else loop op uri (timeoutRetry - 1) connectRetry rest s'
      | (.error (.retryConnect what), s') =>
        if connectRetry - 1 = 0 then some (.error (.retryConnect what), s', rest)
        else loop op uri timeoutRetry (connectRetry - 1) rest s'
      | (r, s') => some (r, s', rest)
  else
    some (.ok { code := 500 }, s, attempts)

/-- The methods with a response. -/
inductive Operation where
  | deleteString
  | deleteFile
  | getString
  | getFile
  | postString
  | putString
  | putFile

/-- The setup in the loop of each method. -/
def Operation.setup : Operation → Setup
  | .deleteString => ⟨.delete, false, .string⟩
  | .deleteFile => ⟨.delete, false, .file⟩
  | .getString => ⟨.get, false, .string⟩
  | .getFile => ⟨.get, false, .file⟩
  | .postString => ⟨.post, true, .string⟩
  | .putString => ⟨.put, true, .string⟩
  | .putFile => ⟨.put, true, .string⟩

/-- The arguments of a method and the files: the string of the caller or the output file, the
body, and the file that is sent. A file that cannot be opened has the text of the error. -/
structure Request where
  uri : Uri
  content : List UInt8 := []
  writable : Except String Unit := .ok ()
  body : List UInt8 := []
  source : Except String (List UInt8) := .ok []

/-- The exception of `FileAutoPtr`. -/
def openError (text : String) : HttpError :=
  .other (.std ("INTERNAL_SERVER_ERROR [500]: failed to open " ++ text))

/-- What is set up before the loop; an output file is emptied. -/
def Operation.start (op : Operation) (q : Request) : HttpM Unit :=
  match op with
  | .deleteString | .getString => pure ()
  | .deleteFile | .getFile => do
      liftM (q.writable.mapError openError)
      modify fun s => { s with content := [] }
  | .postString | .putString => modify fun s => { s with body := q.body }
  | .putFile => do
      let bytes ← liftM (q.source.mapError openError)
      modify fun s => { s with body := bytes }

/-- A method: `DELETE`, `GET`, `POST` or `PUT`. -/
def Operation.run (op : Operation) (client : Private) (q : Request) (attempts : List Attempt) :
    Option (Except HttpError HttpResponse × Session × List Attempt) :=
  match outcome (op.start q) { curl := client.curl, content := q.content, body := [] } with
  | (.error e, s) => some (.error e, s, attempts)
  | (.ok _, s) =>
    loop op.setup q.uri (client.attempts op.setup.method) client.connectAttempts attempts s

/-- `HttpClient::HEAD` -/
def headRequest (client : Private) (uri : Uri) (attempts : List Attempt) :
    Option (Except HttpError HttpResponse × Session × List Attempt) :=
  loop ⟨.head, false, .none⟩ uri (client.attempts .head) client.connectAttempts attempts
    { curl := client.curl, content := [], body := [] }

end Methods

section Effects

/-- The bytes of the response that an attempt delivers. -/
def Attempt.delivered (a : Attempt) : List UInt8 :=
  a.events.flatMap fun e =>
    match e with
    | .write bytes => bytes
    | _ => []

/-- How many bytes of the body an attempt asks for. -/
def Attempt.consumed (a : Attempt) : ℕ :=
  (a.events.map fun e =>
    match e with
    | .read size => size
    | _ => 0).sum

/-- The fields of the response header of an attempt. -/
def Attempt.headers (a : Attempt) : Headers :=
  a.events.foldl (fun headers e =>
    match e with
    | .header line => readResponseHeaders headers line
    | _ => headers) []

variable {op : Setup} {uri : Uri} {a : Attempt} {s s' : Session} {r : HttpResponse}

/-- The callbacks of an attempt append what is delivered and drop what is consumed. -/
theorem outcome_perform {sink : Sink} (hsink : sink ≠ .none) (a : Attempt) (s : Session) :
    outcome (perform sink a) s = (.ok a.headers,
      { s with content := s.content ++ a.delivered, body := s.body.drop a.consumed }) := by
  have hfold : ∀ (events : List Event) (headers : Headers) (s : Session),
      events.foldl (callback sink) (headers, s) =
        (events.foldl (fun headers e =>
            match e with
            | .header line => readResponseHeaders headers line
            | _ => headers) headers,
          { s with
            content := s.content ++ events.flatMap fun e =>
              match e with
              | .write bytes => bytes
              | _ => []
            body := s.body.drop (events.map fun e =>
              match e with
              | .read size => size
              | _ => 0).sum }) := by
    intro events
    induction events with
    | nil => intro headers s; simp
    | cons e rest ih =>
        intro headers s
        rw [List.foldl_cons, List.foldl_cons, List.flatMap_cons, List.map_cons, List.sum_cons]
        cases e with
        | header line => simp only [callback, ih, List.nil_append, Nat.zero_add]
        | read size => simp only [callback, ih, List.nil_append, List.drop_drop]
        | write bytes =>
            simp only [callback, if_neg hsink, ih, List.append_assoc, Nat.zero_add]
  rw [perform, outcome_mk, hfold]
  rfl

/-- A request is set up, or the exception is not caught. -/
theorem setupCurl_cases (method : Method) (a : Attempt) (s : Session) :
    (∃ what s', outcome (setupCurl method a) s = (.error (.client what), s')) ∨
      ∃ curl, outcome (setupCurl method a) s = (.ok (), { s with curl := curl }) := by
  have hmethod : ∀ s' : Session,
      (∃ what, outcome (if method = .unknown then
          throw (.client (clientError "setup got a nonsensical method!"))
        else pure () : HttpM Unit) s' = (.error (.client what), s')) ∨
        outcome (if method = .unknown then
          throw (.client (clientError "setup got a nonsensical method!"))
        else pure () : HttpM Unit) s' = (.ok (), s') := by
    intro s'
    split
    · exact .inl ⟨_, rfl⟩
    · exact .inr rfl
  rw [setupCurl, outcome_bind_ok (outcome_get s)]
  obtain ⟨curl, content, body, offered⟩ := s
  cases curl with
  | true =>
      rcases hmethod ⟨true, content, body, offered⟩ with ⟨what, h⟩ | h
      · exact .inl ⟨what, _, h⟩
      · exact .inr ⟨true, h⟩
  | false =>
      cases hinit : a.init with
      | false => exact .inl ⟨_, _, rfl⟩
      | true =>
          rcases hmethod ⟨true, content, body, offered⟩ with ⟨what, h⟩ | h
          · exact .inl ⟨what, _, h⟩
          · exact .inr ⟨true, h⟩

theorem outcome_makeRequest {sink : Sink} (hsink : sink ≠ .none) {uristr : List Char}
    (huri : uri.canonical = .ok uristr) :
    outcome (makeRequest sink uri a) s =
      (if a.result ≠ 0 then
        .error (resultError a.result ("Error connecting to " ++ String.ofList uristr ++ ": " ++
          a.message ++ " [code " ++ toString a.result ++ "]"))
      else .ok ⟨a.code, a.headers⟩,
      { s with content := s.content ++ a.delivered, body := s.body.drop a.consumed }) := by
  rw [makeRequest, huri, Except.mapError, outcome_bind_ok (outcome_lift _ s),
    outcome_bind_ok (outcome_perform hsink a s)]
  by_cases hresult : a.result = 0
  · rw [if_neg (not_not_intro hresult), if_neg (not_not_intro hresult)]
    rfl
  · rw [if_pos hresult, if_pos hresult]
    rfl

/-- What an attempt that has reached `curl` does to the response and the body. -/
structure Effect (op : Setup) (a : Attempt) (s s' : Session) : Prop where
  content : s'.content = (if op.sink = .string then [] else s.content) ++ a.delivered
  body : s'.body = s.body.drop a.consumed
  offered : s'.offered = if op.hasBody then s.offered ++ [s.body] else s.offered

/-- An attempt that is tried again or returns has reached `curl`. -/
theorem effect_of_request {e : Except HttpError HttpResponse} (hsink : op.sink ≠ .none)
    (h : outcome (request op uri a) s = (e, s')) (he : ∀ x, e = .error x → x.retried = true) :
    Effect op a s s' ∧ ∀ r, e = .ok r → r = ⟨a.code, a.headers⟩ := by
  rw [request] at h
  rcases setupCurl_cases op.method a s with ⟨what, s₁, hsetup⟩ | ⟨curl, hsetup⟩
  · rw [outcome_bind_error hsetup] at h
    cases h
    exact absurd (he _ rfl) Bool.false_ne_true
  rw [outcome_bind_ok hsetup] at h
  -- the setup before `curl` runs
  obtain ⟨s₂, hbody, hs₂⟩ : ∃ s₂ : Session, outcome (makeRequest op.sink uri a) s₂ = (e, s') ∧
      s₂.content = (if op.sink = .string then [] else s.content) ∧ s₂.body = s.body ∧
      s₂.offered = if op.hasBody then s.offered ++ [s.body] else s.offered := by
    obtain ⟨method, hasBody, sink⟩ := op
    cases hasBody with
    | true =>
        cases sink with
        | none => exact absurd rfl hsink
        | string => exact ⟨_, h, rfl, rfl, rfl⟩
        | file => exact ⟨_, h, rfl, rfl, rfl⟩
    | false =>
        cases sink with
        | none => exact absurd rfl hsink
        | string => exact ⟨_, h, rfl, rfl, rfl⟩
        | file => exact ⟨_, h, rfl, rfl, rfl⟩
  obtain ⟨hcontent, hleft, hoffered⟩ := hs₂
  cases huri : uri.canonical with
  | error f =>
      rw [makeRequest, huri, Except.mapError, outcome_bind_error (outcome_lift _ s₂)] at hbody
      cases hbody
      exact absurd (he _ rfl) Bool.false_ne_true
  | ok uristr =>
      rw [outcome_makeRequest hsink huri, Prod.mk.injEq] at hbody
      obtain ⟨rfl, rfl⟩ := hbody
      refine ⟨⟨by rw [← hcontent], by rw [← hleft], hoffered⟩, fun r hr => ?_⟩
      split at hr
      · cases hr
      · cases hr
        rfl

/-- What is left of the body at the start of each attempt. -/
def offers (body : List UInt8) : List Attempt → List (List UInt8)
  | [] => []
  | a :: rest => body :: offers (body.drop a.consumed) rest

/-- What a loop that has returned after all of the attempts leaves. -/
structure Left (op : Setup) (attempts : List Attempt) (s s' : Session) (r : HttpResponse) :
    Prop where
  offered : s'.offered = if op.hasBody then s.offered ++ offers s.body attempts else s.offered
  content : ∀ last ∈ attempts.getLast?, s'.content =
    (if op.sink = .string then [] else s.content ++ attempts.dropLast.flatMap Attempt.delivered) ++
      last.delivered
  response : ∀ last ∈ attempts.getLast?, r = ⟨last.code, last.headers⟩

theorem Left.cons {s₁ : Session} {rest : List Attempt} (heffect : Effect op a s s₁)
    (hrest : rest ≠ []) (h : Left op rest s₁ s' r) : Left op (a :: rest) s s' r := by
  obtain ⟨hcontent, hbody, hoffered⟩ := heffect
  refine ⟨?_, fun last hlast => ?_, fun last hlast => ?_⟩
  · rw [h.offered, hoffered, hbody, offers]
    split
    · rw [List.append_assoc]
      rfl
    · rfl
  · rw [List.getLast?_cons_of_ne_nil hrest] at hlast
    rw [h.content last hlast, hcontent, List.dropLast_cons_of_ne_nil hrest, List.flatMap_cons]
    split
    · rfl
    · rw [List.append_assoc s.content]
  · rw [List.getLast?_cons_of_ne_nil hrest] at hlast
    exact h.response last hlast

theorem loop_nil {timeoutRetry connectRetry : ℤ} (ht : timeoutRetry ≠ 0) (hc : connectRetry ≠ 0) :
    loop op uri timeoutRetry connectRetry [] s = none := by
  rw [loop, if_pos ⟨ht, hc⟩]

/-- The loop, by induction on the attempts. -/
theorem left_of_loop (hsink : op.sink ≠ .none) {timeoutRetry connectRetry : ℤ}
    {attempts : List Attempt}
    (h : loop op uri timeoutRetry connectRetry attempts s = some (.ok r, s', [])) :
    Left op attempts s s' r := by
  induction attempts generalizing timeoutRetry connectRetry s with
  | nil =>
      rw [loop] at h
      split at h
      · cases h
      · cases h
        refine ⟨?_, nofun, nofun⟩
        rw [offers, List.append_nil, ite_self]
  | cons a rest ih =>
      rw [loop] at h
      split at h
      · rename_i hcounters
        -- an attempt that is tried again is not the last one
        have hagain : ∀ s₁ x t c, outcome (request op uri a) s = (.error x, s₁) →
            x.retried = true → t ≠ 0 → c ≠ 0 →
            loop op uri t c rest s₁ = some (.ok r, s', []) → Left op (a :: rest) s s' r := by
          intro s₁ x t c houtcome hx ht hc hloop
          have hrest : rest ≠ [] := by
            rintro rfl
            rw [loop_nil ht hc] at hloop
            cases hloop
          have heffect := (effect_of_request hsink houtcome fun y hy => by
            cases hy
            exact hx).1
          exact Left.cons heffect hrest (ih hloop)
        split at h
        · rename_i what s₁ houtcome
          split at h
          · cases h
          · rename_i ht
            exact hagain s₁ _ _ _ houtcome rfl ht hcounters.2 h
        · rename_i what s₁ houtcome
          split at h
          · cases h
          · rename_i hc
            exact hagain s₁ _ _ _ houtcome rfl hcounters.1 hc h
        · rename_i e s₁ _ _ houtcome
          cases h
          obtain ⟨⟨hcontent, hbody, hoffered⟩, hresponse⟩ :=
            effect_of_request hsink houtcome nofun
          refine ⟨hoffered, ?_, ?_⟩
          · rintro last ⟨⟩
            rw [hcontent, List.dropLast_singleton, List.flatMap_nil, List.append_nil]
            rfl
          · rintro last ⟨⟩
            exact hresponse r rfl
      · cases h

theorem offers_eq_iff (body : List UInt8) (attempts : List Attempt) :
    offers body attempts = attempts.map (fun _ => body) ↔
      (body ≠ [] → ∀ a ∈ attempts.dropLast, a.consumed = 0) := by
  induction attempts generalizing body with
  | nil => exact iff_of_true rfl fun _ a ha => absurd ha List.not_mem_nil
  | cons a rest ih =>
      cases rest with
      | nil => exact iff_of_true rfl fun _ a ha => absurd ha List.not_mem_nil
      | cons a' rest =>
          rw [offers, List.map_cons, List.cons.injEq, and_iff_right rfl, List.dropLast_cons_cons,
            List.forall_mem_cons]
          by_cases hdrop : body.drop a.consumed = body
          · rw [hdrop, ih body]
            refine imp_congr_right fun hbody => (and_iff_right ?_).symm
            have hlength := congrArg List.length hdrop
            rw [List.length_drop] at hlength
            have hpos := List.length_pos_iff.mpr hbody
            omega
          · refine iff_of_false (fun h => ?_) fun h => ?_
            · rw [offers, List.map_cons, List.cons.injEq] at h
              exact hdrop h.1
            · have hbody : body ≠ [] := by
                rintro rfl
                exact hdrop List.drop_nil
              rw [(h hbody).1] at hdrop
              exact hdrop rfl

end Effects

section Invisible

/-- The request body of a method. -/
def Operation.body (op : Operation) (q : Request) : List UInt8 :=
  match op, q.source with
  | .postString, _ | .putString, _ => q.body
  | .putFile, .ok bytes => bytes
  | _, _ => []

/-- The response is the one of the last attempt, and every attempt has offered the whole
body. -/
structure Invisible (op : Operation) (q : Request) (attempts : List Attempt) (s : Session) :
    Prop where
  content : ∀ last ∈ attempts.getLast?, s.content = last.delivered
  offered : op.setup.hasBody = true → s.offered = attempts.map fun _ => op.body q

variable {op : Operation} {client : Private} {q : Request} {attempts : List Attempt}
  {r : HttpResponse} {s s' : Session}

theorem start_eq_ok (h : outcome (op.start q)
      { curl := client.curl, content := q.content, body := [] } = (.ok (), s)) :
    s.body = op.body q ∧ s.offered = [] ∧ (op.setup.sink = .file → s.content = []) := by
  cases op with
  | deleteString | getString | postString | putString =>
      cases h
      exact ⟨rfl, rfl, nofun⟩
  | deleteFile | getFile =>
      cases hwritable : q.writable with
      | error text =>
          rw [Operation.start, hwritable] at h
          cases h
      | ok u =>
          rw [Operation.start, hwritable] at h
          cases h
          exact ⟨rfl, rfl, fun _ => rfl⟩
  | putFile =>
      cases hsource : q.source with
      | error text =>
          rw [Operation.start, hsource] at h
          cases h
      | ok bytes =>
          rw [Operation.start, hsource] at h
          cases h
          have hbody : Operation.putFile.body q = bytes := by simp only [Operation.body, hsource]
          exact ⟨hbody.symm, rfl, nofun⟩

/-- A method that returns has run its loop on what it has set up. -/
theorem left_of_run (h : op.run client q attempts = some (.ok r, s', [])) :
    ∃ s, Left op.setup attempts s s' r ∧ s.body = op.body q ∧ s.offered = [] ∧
      (op.setup.sink = .file → s.content = []) := by
  have hsink : op.setup.sink ≠ .none := by cases op <;> exact nofun
  rw [Operation.run] at h
  split at h
  · cases h
  · rename_i u s hstart
    exact ⟨s, left_of_loop hsink h, start_eq_ok hstart⟩

/-- For all methods, numbers of attempts and outcomes of them: after a method has returned,
the retries are invisible if and only if no attempt before the last one has written to an
output file or read from a body that is not empty. -/
theorem invisible_iff (h : op.run client q attempts = some (.ok r, s', [])) :
    Invisible op q attempts s' ↔
      (op.setup.sink = .file → ∀ a ∈ attempts.dropLast, a.delivered = []) ∧
        (op.body q ≠ [] → ∀ a ∈ attempts.dropLast, a.consumed = 0) := by
  obtain ⟨s, hleft, hbody, hoffered, hcontent⟩ := left_of_run h
  have hresponse : (∀ last ∈ attempts.getLast?, s'.content = last.delivered) ↔
      (op.setup.sink = .file → ∀ a ∈ attempts.dropLast, a.delivered = []) := by
    have hflat : ∀ last ∈ attempts.getLast?, s'.content = last.delivered ↔
        (op.setup.sink = .file → ∀ a ∈ attempts.dropLast, a.delivered = []) := by
      intro last hlast
      rw [hleft.content last hlast]
      cases hsink : op.setup.sink with
      | none => cases op <;> cases hsink
      | string => simp
      | file =>
          rw [if_neg (by simp), hcontent hsink, List.nil_append]
          simp
    cases hlast : attempts.getLast? with
    | none =>
        rw [List.getLast?_eq_none_iff] at hlast
        subst hlast
        exact iff_of_true nofun fun _ a ha => absurd ha List.not_mem_nil
    | some last => simpa using hflat last hlast
  have hoffers : (op.setup.hasBody = true → s'.offered = attempts.map fun _ => op.body q) ↔
      (op.body q ≠ [] → ∀ a ∈ attempts.dropLast, a.consumed = 0) := by
    rw [hleft.offered, hoffered, hbody, List.nil_append]
    cases hhas : op.setup.hasBody with
    | true =>
        rw [if_pos rfl, offers_eq_iff]
        simp
    | false =>
        have hnone : op.body q = [] := by cases op <;> first | rfl | cases hhas
        exact iff_of_true nofun fun hne => absurd hnone hne
  rw [← hresponse, ← hoffers]
  exact ⟨fun h => ⟨h.content, h.offered⟩, fun h => ⟨h.1, h.2⟩⟩

/-- The response has the code and the fields of the last attempt. -/
theorem response_of_run (h : op.run client q attempts = some (.ok r, s', [])) :
    ∀ last ∈ attempts.getLast?, r = ⟨last.code, last.headers⟩ := by
  obtain ⟨s, hleft, -⟩ := left_of_run h
  exact hleft.response

/-- A byte is delivered before the connection is lost, and the second attempt delivers the
response. -/
def lostThenDelivered : List Attempt :=
  [{ events := [.write [1]], result := curleRecvError, code := 0 },
    { events := [.write [1, 2]], result := 0, code := 200 }]

def sampleRequest : Request where
  uri := { scheme := Uri.http, hostname := ['a'], port := 80 }

theorem invisible_getString :
    Operation.getString.run {} sampleRequest lostThenDelivered =
      some (.ok { code := 200 }, { curl := true, content := [1, 2], body := [] }, []) ∧
    Invisible .getString sampleRequest lostThenDelivered
      { curl := true, content := [1, 2], body := [] } := by
  have hrun : Operation.getString.run {} sampleRequest lostThenDelivered =
      some (.ok { code := 200 }, { curl := true, content := [1, 2], body := [] }, []) := rfl
  exact ⟨hrun, (invisible_iff hrun).mpr ⟨nofun, fun hbody => absurd rfl hbody⟩⟩

/-- The file of `GET` has the bytes of both attempts. -/
theorem not_invisible :
    ¬ ∀ (op : Operation) (client : Private) (q : Request) (attempts : List Attempt)
      (r : HttpResponse) (s : Session), op.run client q attempts = some (.ok r, s, []) →
        Invisible op q attempts s := by
  intro h
  have hrun : Operation.getFile.run {} sampleRequest lostThenDelivered =
      some (.ok { code := 200 }, { curl := true, content := [1, 1, 2], body := [] }, []) := rfl
  have hcontent := (h _ _ _ _ _ _ hrun).content _ rfl
  exact absurd hcontent (by decide)

end Invisible

end Http

end Gearbox
