import Gearbox.Refinement.Retry
import Gearbox.Texts.Cut

/-!
# The client that polls

The client of the tests sends a request. If it is accepted, so that there is a status, then the
client polls the status until its progress is 100. It ends with an error if the code of the status
is not 0, and otherwise it asks for the resource of the status.

A polled status is read by the same method `req`, which may throw, and which may itself be told to
poll. The uri of the next poll is taken from the status that was read last. A program with an
answer for each of its requests ends for all bounds on its rounds that are large enough.
-/

namespace Gearbox

namespace RestClient

open Refinement Texts

/-- The fields that the client reads of a hash. One that is missing is 0 or the empty text. -/
structure Fields where
  progress : ℤ := 0
  code : ℤ := 0
  uri : String := ""
  statusUri : String := ""

/-- What Perl makes of a value: whether it is true, and its fields if it is a hash. -/
structure Perl (J : Type) where
  isTrue : J → Bool
  fields : J → Option Fields

/-- The code of a response, and the value that is read from its text, if it is valid. -/
structure Response (J : Type) where
  code : ℕ
  json : Option J

/-- `new`, apart from the time between two polls. -/
structure Options where
  autoPoll : Bool := true
  throws : Bool := true

/-- What the client dies with, `waiting` for an answer that has not come, and `late` for a loop
that has not ended within its bound. -/
inductive Failure (J : Type) where
  | invalidJson (method uri : String)
  | error (json : J)
  | response (method uri : String) (res : Response J)
  | notHash
  | waiting
  | late

/-- What `req` returns. -/
inductive Value (J : Type) where
  | one
  | json (j : J)

/-- The client, the answers that the server is going to give, and the requests so far. -/
structure Session (J : Type) where
  status : Option J := none
  res : Option (Response J) := none
  answers : List (Response J)
  sent : List (String × String) := []

abbrev RestM (J : Type) : Type → Type :=
  Code (Session J) (Failure J)

variable {J : Type}

/-- `is_success` -/
def Response.isSuccess (res : Response J) : Bool :=
  200 ≤ res.code && res.code < 300

section Source

variable (perl : Perl J) (o : Options)

/-- The fields of a value that has to be a hash. -/
def fields (json : J) : RestM J Fields :=
  match perl.fields json with
  | some f => pure f
  | none => throw .notHash

/-- The value as a hash. -/
def Value.hash : Value J → RestM J J
  | .one => throw .notHash
  | .json j => pure j

/-- The request, and what `req` does around it. -/
def request (internal : Bool) (method uri : String) : RestM J (Response J) := do
  modify fun s => { s with
    status := if internal then s.status else none
    sent := s.sent ++ [(method, uri)] }
  let s ← get
  match s.answers with
  | [] => throw .waiting
  | res :: answers => do
    set { s with res := if internal then s.res else some res, answers := answers }
    pure res

/-- `from_json` -/
def fromJson (e : Failure J) (res : Response J) : RestM J J :=
  match res.json with
  | some json => pure json
  | none => throw e

/-- The condition of `req` for a value to be the new status. -/
def isStatus (uri : String) : RestM J Bool := do
  match (← get).status with
  | none => pure (cutAt "status".toList uri.toList).isSome
  | some status =>
    if perl.isTrue status then do
      let f ← fields perl status
      pure (uri = f.statusUri)
    else pure (cutAt "status".toList uri.toList).isSome

/-- `req` for a response other than 202. -/
def answer (method uri : String) (res : Response J) : RestM J (Value J) := do
  if res.isSuccess then
    if method = "DELETE" then pure .one
    else do
      let json ← fromJson (.invalidJson method uri) res
      let isNew ← isStatus perl uri
      modify fun s => { s with status := if isNew then some json else s.status }
      pure (.json json)
  else do
    let json ← fromJson (.response method uri res) res
    modify fun s => { s with status := some json }
    if o.throws then throw (.error json) else pure (.json json)

mutual

/-- `req` -/
def req : ℕ → Bool → String → String → RestM J (Value J)
  | 0, _, _, _ => throw .late
  | n + 1, internal, method, uri => do
    let res ← request internal method uri
    if res.code = 202 then do
      let json ← fromJson (.invalidJson method uri) res
      modify fun s => { s with status := some json }
      if o.autoPoll then do
        let json ← poll n json
        let f ← fields perl json
        if f.code ≠ 0 then
          if o.throws then throw (.error json) else pure (.json json)
        else if method = "DELETE" then pure .one
        else req n true "GET" f.uri
      else do
        let _ ← fields perl json
        pure (.json json)
    else answer perl o method uri res

/-- The loop of `req`. -/
def poll : ℕ → J → RestM J J
  | 0, _ => throw .late
  | n + 1, json => do
    let f ← fields perl json
    if f.progress = 100 then pure json
    else do
      let json ← (← req n true "GET" f.statusUri).hash
      let f ← fields perl json
      if f.progress = 100 then pure json else poll n json

end

/-- `req` after its loop. -/
def conclude (method : String) (n : ℕ) (json : J) : RestM J (Value J) := do
  let f ← fields perl json
  if f.code ≠ 0 then
    if o.throws then throw (.error json) else pure (.json json)
  else if method = "DELETE" then pure .one
  else req perl o n true "GET" f.uri

end Source

/-- A value that is a hash, with its fields. -/
structure Hash (perl : Perl J) where
  json : J
  fields : Fields
  isTrue : perl.isTrue json = true
  fields_eq : perl.fields json = some fields

section Polls

variable {perl : Perl J} {o : Options} {internal : Bool} {method uri : String}
  {s s' : Session J} {cur h last : Hash perl} {hs : List (Hash perl)} {rest : List (Response J)}

/-- The response to a poll. -/
def okay (json : J) : Response J :=
  ⟨200, some json⟩

/-- The response to a request that is accepted. -/
def accepted (json : J) : Response J :=
  ⟨202, some json⟩

/-- The poll of a status. -/
def Hash.poll (h : Hash perl) : String × String :=
  ("GET", h.fields.statusUri)

theorem outcome_fields (h : Hash perl) (s : Session J) :
    outcome (fields perl h.json) s = (.ok h.fields, s) := by
  rw [fields, h.fields_eq]
  rfl

theorem outcome_request {res : Response J} (hanswers : s.answers = res :: rest) :
    outcome (request internal method uri) s =
      (.ok res, { s with
        status := if internal then s.status else none
        res := if internal then s.res else some res
        answers := rest
        sent := s.sent ++ [(method, uri)] }) := by
  rw [request, outcome_bind_ok (outcome_modify _ s), outcome_bind_ok (outcome_get _)]
  dsimp only
  rw [hanswers]
  rfl

theorem outcome_request_waiting (hanswers : s.answers = []) :
    outcome (request internal method uri) s =
      (.error .waiting, { s with
        status := if internal then s.status else none
        sent := s.sent ++ [(method, uri)] }) := by
  rw [request, outcome_bind_ok (outcome_modify _ s), outcome_bind_ok (outcome_get _)]
  dsimp only
  rw [hanswers]
  rfl

/-- A request behind a status. The answer is the new status if it has been asked for. -/
theorem outcome_req_get {json : J} (hstatus : s.status = some cur.json)
    (hanswers : s.answers = okay json :: rest) (n : ℕ) :
    outcome (req perl o (n + 1) true "GET" uri) s =
      (.ok (.json json), { s with
        status := if uri = cur.fields.statusUri then some json else s.status
        answers := rest
        sent := s.sent ++ [("GET", uri)] }) := by
  have hrequest : outcome (request true "GET" uri) s =
      (.ok (okay json), { s with answers := rest, sent := s.sent ++ [("GET", uri)] }) :=
    outcome_request hanswers
  generalize hs' : ({ s with answers := rest, sent := s.sent ++ [("GET", uri)] } : Session J) = s'
    at hrequest
  have his : outcome (isStatus perl uri) s' = (.ok (uri = cur.fields.statusUri), s') := by
    have hstatus' : s'.status = some cur.json := by
      rw [← hs']
      exact hstatus
    rw [isStatus, outcome_bind_ok (outcome_get _), hstatus']
    dsimp only
    rw [if_pos cur.isTrue, outcome_bind_ok (outcome_fields cur _)]
    rfl
  have hcode : ¬ (okay json).code = 202 := by
    have hokay : (okay json).code = 200 := rfl
    rw [hokay]
    decide
  have hsuccess : (okay json).isSuccess = true := rfl
  have hmethod : ¬ "GET" = "DELETE" := by decide
  have hjson : outcome (fromJson (.invalidJson "GET" uri) (okay json)) s' = (.ok json, s') := rfl
  rw [req, outcome_bind_ok hrequest, if_neg hcode, answer, if_pos hsuccess, if_neg hmethod,
    outcome_bind_ok hjson, outcome_bind_ok his, outcome_bind_ok (outcome_modify _ _), ← hs']
  simp only [decide_eq_true_eq]
  rfl

/-- A poll that gives an error, as the server sends it. -/
theorem outcome_req_failed (o : Options) (uri : String) {code : ℕ} (hcode : 300 ≤ code)
    (hanswers : s.answers = ⟨code, some h.json⟩ :: rest) (n : ℕ) :
    outcome (req perl o (n + 1) true "GET" uri) s =
      (if o.throws then .error (.error h.json) else .ok (.json h.json), { s with
        status := some h.json
        answers := rest
        sent := s.sent ++ [("GET", uri)] }) := by
  have hsuccess : ¬ (⟨code, some h.json⟩ : Response J).isSuccess = true := by
    rw [Response.isSuccess]
    simp
    omega
  have hrequest : outcome (request true "GET" uri) s =
      (.ok ⟨code, some h.json⟩, { s with answers := rest, sent := s.sent ++ [("GET", uri)] }) :=
    outcome_request hanswers
  rw [req, outcome_bind_ok hrequest, if_neg (by dsimp only; omega), answer, if_neg hsuccess]
  have hjson : ∀ s' : Session J, outcome (fromJson (.response "GET" uri ⟨code, some h.json⟩)
      ⟨code, some h.json⟩) s' = (.ok h.json, s') := fun _ => rfl
  rw [outcome_bind_ok (hjson _), outcome_bind_ok (outcome_modify _ _)]
  split
  · rfl
  · rfl

/-- The state after a poll. -/
def Session.polled (s : Session J) (cur h : Hash perl) (rest : List (Response J)) : Session J :=
  { s with
    status := some h.json
    answers := rest
    sent := s.sent ++ [cur.poll] }

/-- A round of the loop. -/
theorem outcome_poll_succ (hpending : cur.fields.progress ≠ 100)
    (hstatus : s.status = some cur.json) (hanswers : s.answers = okay h.json :: rest) (n : ℕ) :
    outcome (poll perl o (n + 2) cur.json) s =
      outcome (poll perl o (n + 1) h.json) (s.polled cur h rest) := by
  rw [poll, outcome_bind_ok (outcome_fields cur s), if_neg hpending,
    outcome_bind_ok (outcome_req_get hstatus hanswers n), if_pos rfl, Value.hash,
    outcome_bind_ok (outcome_pure _ _), outcome_bind_ok (outcome_fields h _)]
  by_cases hdone : h.fields.progress = 100
  · rw [if_pos hdone, poll, outcome_bind_ok (outcome_fields h _), if_pos hdone]
    rfl
  · rw [if_neg hdone]
    rfl

/-- The statuses that the client has polled lead to the poll of the last one. -/
theorem halts_poll_append {first : Hash perl} {pending : List (Hash perl)}
    {r : Except (Failure J) J} (hpending : ∀ x ∈ pending, x.fields.progress ≠ 100)
    (heq : first :: hs = pending ++ [last]) (hstatus : s.status = some first.json)
    (hanswers : s.answers = hs.map (fun h => okay h.json) ++ rest) :
    Halts .late (fun n => poll perl o n first.json) s r s' ↔
      Halts .late (fun n => poll perl o n last.json)
        { s with
          status := some last.json
          answers := rest
          sent := s.sent ++ pending.map Hash.poll } r s' := by
  induction pending generalizing first hs s with
  | nil =>
      cases heq
      have hs : s = { s with
          status := some last.json
          answers := rest
          sent := s.sent ++ [] } := by
        have hrest : rest = s.answers := hanswers.symm
        rw [List.append_nil, ← hstatus, hrest]
      rw [List.map_nil, ← hs]
  | cons p pending ih =>
      rw [List.cons_append] at heq
      obtain ⟨rfl, hhs⟩ := List.cons.inj heq
      rw [List.forall_mem_cons] at hpending
      cases hs with
      | nil =>
          rw [eq_comm, List.append_eq_nil_iff] at hhs
          exact absurd hhs.2 (List.cons_ne_nil _ _)
      | cons h hs =>
          have hround : ∀ n, 1 ≤ n → outcome (poll perl o (n + 1) first.json) s =
              outcome (poll perl o n h.json)
                (s.polled first h (hs.map (fun h => okay h.json) ++ rest)) := by
            intro n hn
            obtain ⟨n, rfl⟩ := Nat.exists_eq_add_of_le' hn
            exact outcome_poll_succ hpending.1 hstatus hanswers n
          rw [halts_succ 1 hround, ih hpending.2 hhs rfl rfl, List.map_cons]
          dsimp only [Session.polled]
          rw [List.append_assoc]
          rfl

/-- The loop ends with a status that is finished. -/
theorem halts_poll_done (hdone : last.fields.progress = 100) (s : Session J) :
    Halts .late (fun n => poll perl o n last.json) s (.ok last.json) s := by
  refine ⟨by rintro ⟨⟩, 1, fun n hn => ?_⟩
  obtain ⟨n, rfl⟩ := Nat.exists_eq_add_of_le' hn
  dsimp only
  rw [poll, outcome_bind_ok (outcome_fields last s), if_pos hdone]
  rfl

/-- The loop waits for the status that has not come. -/
theorem halts_poll_waiting (hpending : last.fields.progress ≠ 100) (hanswers : s.answers = []) :
    Halts .late (fun n => poll perl o n last.json) s (.error .waiting)
      { s with sent := s.sent ++ [last.poll] } := by
  refine ⟨by rintro ⟨⟩, 2, fun n hn => ?_⟩
  obtain ⟨n, rfl⟩ := Nat.exists_eq_add_of_le' hn
  have hreq : outcome (req perl o (n + 1) true "GET" last.fields.statusUri) s =
      (.error .waiting, { s with sent := s.sent ++ [last.poll] }) := by
    rw [req, outcome_bind_error (outcome_request_waiting hanswers)]
    rfl
  dsimp only
  rw [poll, outcome_bind_ok (outcome_fields last s), if_neg hpending, outcome_bind_error hreq]

/-- What the client makes of an error. -/
def refusal (o : Options) (json : J) : Except (Failure J) (Value J) :=
  if o.throws then .error (.error json) else .ok (.json json)

/-- The loop ends with an error of the server, whose progress is 100. -/
theorem halts_poll_failed (hpending : cur.fields.progress ≠ 100) {code : ℕ} (hcode : 300 ≤ code)
    (hanswers : s.answers = ⟨code, some last.json⟩ :: rest)
    (hdone : last.fields.progress = 100) :
    Halts .late (fun n => poll perl o n cur.json) s
      (if o.throws then .error (.error last.json) else .ok last.json)
      (s.polled cur last rest) := by
  refine ⟨?_, 2, fun n hn => ?_⟩
  · split
    · rintro ⟨⟩
    · rintro ⟨⟩
  · obtain ⟨n, rfl⟩ := Nat.exists_eq_add_of_le' hn
    dsimp only
    rw [poll, outcome_bind_ok (outcome_fields cur s), if_neg hpending]
    have hreq := outcome_req_failed o cur.fields.statusUri hcode hanswers n
    by_cases hthrows : o.throws = true
    · rw [if_pos hthrows] at hreq ⊢
      rw [outcome_bind_error hreq]
      rfl
    · rw [if_neg hthrows] at hreq ⊢
      rw [outcome_bind_ok hreq, Value.hash, outcome_bind_ok (outcome_pure _ _),
        outcome_bind_ok (outcome_fields last _), if_pos hdone]
      rfl

/-- A request that is accepted goes on with the loop. -/
theorem halts_req_accepted {first : Hash perl} {r : Except (Failure J) (Value J)}
    (hauto : o.autoPoll = true) (hanswers : s.answers = accepted first.json :: rest) :
    Halts .late (fun n => req perl o n false method uri) s r s' ↔
      Halts .late (fun n => poll perl o n first.json >>= conclude perl o method n)
        { s with
          status := some first.json
          res := some (accepted first.json)
          answers := rest
          sent := s.sent ++ [(method, uri)] } r s' := by
  refine halts_succ 0 fun n _ => ?_
  have hcode : (accepted first.json).code = 202 := rfl
  have hjson : ∀ s' : Session J, outcome (fromJson (.invalidJson method uri)
      (accepted first.json)) s' = (.ok first.json, s') := fun _ => rfl
  rw [req, outcome_bind_ok (outcome_request hanswers), if_pos hcode, outcome_bind_ok (hjson _),
    outcome_bind_ok (outcome_modify _ _), if_pos hauto]
  rfl

end Polls

section Requests

variable {perl : Perl J} {o : Options} {pending : List (Hash perl)} {s' : Session J}

/-- The answers of a server that accepts a request, and then gives the statuses. -/
def answersOf : List (Hash perl) → List (Response J)
  | [] => []
  | first :: hs => accepted first.json :: hs.map fun h => okay h.json

/-- How a request ends whose status is finished. -/
def verdict (o : Options) (method : String) (last : Hash perl) (resource : J) :
    Except (Failure J) (Value J) :=
  if last.fields.code ≠ 0 then refusal o last.json
  else if method = "DELETE" then .ok .one
  else .ok (.json resource)

/-- The session when the loop comes to a status. -/
def sessionAt (method uri : String) (first last : Hash perl) (pending : List (Hash perl))
    (rest : List (Response J)) : Session J where
  status := some last.json
  res := some (accepted first.json)
  answers := rest
  sent := (method, uri) :: pending.map Hash.poll

/-- The request and the polls of the statuses that are not finished. -/
theorem halts_req_loop (hauto : o.autoPoll = true) (method uri : String)
    (hpending : ∀ x ∈ pending, x.fields.progress ≠ 100) (last : Hash perl)
    (rest : List (Response J)) :
    ∃ (first : Hash perl) (s₁ : Session J),
      (∀ r s', Halts .late (fun n => req perl o n false method uri)
          { answers := answersOf (pending ++ [last]) ++ rest } r s' ↔
        Halts .late (fun n => poll perl o n first.json >>= conclude perl o method n) s₁ r s') ∧
      ∀ r s', Halts .late (fun n => poll perl o n first.json) s₁ r s' ↔
        Halts .late (fun n => poll perl o n last.json)
          (sessionAt method uri first last pending rest) r s' := by
  obtain ⟨first, hs, heq⟩ := List.exists_cons_of_ne_nil
    (List.append_ne_nil_of_right_ne_nil pending (List.cons_ne_nil last []))
  have hanswers : answersOf (pending ++ [last]) ++ rest =
      accepted first.json :: (hs.map (fun h => okay h.json) ++ rest) := by
    rw [heq]
    rfl
  refine ⟨first, { status := some first.json
                   res := some (accepted first.json)
                   answers := hs.map (fun h => okay h.json) ++ rest
                   sent := [(method, uri)] }, fun r s' => ?_, fun r s' => ?_⟩
  · rw [hanswers]
    exact halts_req_accepted hauto rfl
  · exact halts_poll_append hpending heq.symm rfl rfl

/-- A request whose status is not finished waits for its next poll. -/
theorem halts_req_pending (hauto : o.autoPoll = true) (method uri : String)
    (hpending : ∀ x ∈ pending, x.fields.progress ≠ 100) (hne : pending ≠ []) :
    ∃ s', Halts .late (fun n => req perl o n false method uri)
        { answers := answersOf pending } (.error .waiting) s' ∧
      s'.sent = (method, uri) :: pending.map Hash.poll ∧
      s'.status = pending.getLast?.map Hash.json := by
  obtain ⟨before, last, rfl⟩ := (List.eq_nil_or_concat' pending).resolve_left hne
  rw [List.forall_mem_append, List.forall_mem_singleton] at hpending
  obtain ⟨first, s₁, hreq, hpoll⟩ := halts_req_loop hauto method uri hpending.1 last []
  rw [List.append_nil] at hreq
  have hwait := halts_poll_waiting (o := o)
    (s := sessionAt method uri first last before []) hpending.2 rfl
  refine ⟨_, (hreq _ _).mpr ((hpoll _ _).mpr hwait).bind_error, ?_, ?_⟩
  · rw [List.map_append]
    rfl
  · rw [List.getLast?_concat]
    rfl

theorem verdict_ne_late (o : Options) (method : String) (last : Hash perl) (resource : J) :
    verdict o method last resource ≠ .error .late := by
  rw [verdict]
  split
  · rw [refusal]
    split
    · rintro ⟨⟩
    · rintro ⟨⟩
  · split
    · rintro ⟨⟩
    · rintro ⟨⟩

/-- The session at the end of a request. -/
def Session.concluded (s : Session J) (method : String) (last : Hash perl) (resource : J)
    (rest : List (Response J)) : Session J :=
  if last.fields.code = 0 ∧ method ≠ "DELETE" then
    { s with
      status := if last.fields.uri = last.fields.statusUri then some resource else s.status
      answers := rest
      sent := s.sent ++ [("GET", last.fields.uri)] }
  else s

theorem outcome_conclude {s : Session J} {last : Hash perl} {resource : J}
    {rest : List (Response J)} (hstatus : s.status = some last.json)
    (hanswers : s.answers = okay resource :: rest) (o : Options) (method : String) (n : ℕ) :
    outcome (conclude perl o method (n + 1) last.json) s =
      (verdict o method last resource, s.concluded method last resource rest) := by
  rw [conclude, outcome_bind_ok (outcome_fields last s), verdict, Session.concluded]
  by_cases hcode : last.fields.code = 0
  · rw [if_neg (not_not_intro hcode), if_neg (not_not_intro hcode)]
    by_cases hmethod : method = "DELETE"
    · have hnot : ¬ (last.fields.code = 0 ∧ method ≠ "DELETE") := fun h => h.2 hmethod
      rw [if_pos hmethod, if_pos hmethod, if_neg hnot]
      rfl
    · rw [if_neg hmethod, if_neg hmethod, if_pos ⟨hcode, hmethod⟩,
        outcome_req_get hstatus hanswers]
  · have hnot : ¬ (last.fields.code = 0 ∧ method ≠ "DELETE") := fun h => hcode h.1
    rw [if_pos hcode, if_pos hcode, if_neg hnot, refusal]
    split
    · rfl
    · rfl

/-- A request whose status is finished ends with what the status says. -/
theorem halts_req_done (hauto : o.autoPoll = true) (method uri : String)
    (hpending : ∀ x ∈ pending, x.fields.progress ≠ 100) {last : Hash perl}
    (hdone : last.fields.progress = 100) (resource : J) :
    ∃ s', Halts .late (fun n => req perl o n false method uri)
        { answers := answersOf (pending ++ [last]) ++ [okay resource] }
        (verdict o method last resource) s' ∧
      s'.sent = (method, uri) :: pending.map Hash.poll ++
        (if last.fields.code = 0 ∧ method ≠ "DELETE" then [("GET", last.fields.uri)] else []) := by
  obtain ⟨first, s₁, hreq, hpoll⟩ :=
    halts_req_loop hauto method uri hpending last [okay resource]
  have hloop := (hpoll _ _).mpr (halts_poll_done hdone _)
  refine ⟨(sessionAt method uri first last pending [okay resource]).concluded method last
    resource [], (hreq _ _).mpr (hloop.bind_iff.mpr ?_), ?_⟩
  · refine ⟨verdict_ne_late o method last resource, 1, fun n hn => ?_⟩
    obtain ⟨n, rfl⟩ := Nat.exists_eq_add_of_le' hn
    exact outcome_conclude rfl rfl o method n
  · rw [Session.concluded]
    split
    · rfl
    · rw [List.append_nil]
      rfl

/-- A request ends with an error that the server gives instead of a status. -/
theorem halts_req_failed (hauto : o.autoPoll = true) (method uri : String)
    (hpending : ∀ x ∈ pending, x.fields.progress ≠ 100) (hne : pending ≠ []) {err : Hash perl}
    {code : ℕ} (hcode : 300 ≤ code) (hdone : err.fields.progress = 100)
    (herror : err.fields.code ≠ 0) :
    ∃ s', Halts .late (fun n => req perl o n false method uri)
        { answers := answersOf pending ++ [⟨code, some err.json⟩] } (refusal o err.json) s' ∧
      s'.sent = (method, uri) :: pending.map Hash.poll := by
  obtain ⟨before, last, rfl⟩ := (List.eq_nil_or_concat' pending).resolve_left hne
  rw [List.forall_mem_append, List.forall_mem_singleton] at hpending
  obtain ⟨first, s₁, hreq, hpoll⟩ :=
    halts_req_loop hauto method uri hpending.1 last [⟨code, some err.json⟩]
  have hfailed := halts_poll_failed (o := o) hpending.2 hcode
    (s := sessionAt method uri first last before [⟨code, some err.json⟩]) rfl hdone
  have hloop := (hpoll _ _).mpr hfailed
  refine ⟨(sessionAt method uri first last before [⟨code, some err.json⟩]).polled last err [],
    (hreq _ _).mpr ?_, ?_⟩
  · rw [refusal]
    by_cases hthrows : o.throws = true
    · rw [if_pos hthrows] at hloop ⊢
      exact hloop.bind_error
    · rw [if_neg hthrows] at hloop ⊢
      refine hloop.bind_iff.mpr ⟨by rintro ⟨⟩, 0, fun n _ => ?_⟩
      dsimp only
      rw [conclude, outcome_bind_ok (outcome_fields err _), if_pos herror, if_neg hthrows]
      rfl
  · rw [List.map_append]
    rfl

/-- Whatever statuses the server gives: the client polls as long as none of them is finished. It
ends with the first one that is, and with an error that the server gives instead of a status. -/
theorem req_polls (hauto : o.autoPoll = true) (method uri : String)
    (hpending : ∀ x ∈ pending, x.fields.progress ≠ 100) :
    (pending ≠ [] → ∃ s', Halts .late (fun n => req perl o n false method uri)
        { answers := answersOf pending } (.error .waiting) s' ∧
      s'.sent = (method, uri) :: pending.map Hash.poll ∧
      s'.status = pending.getLast?.map Hash.json) ∧
    (∀ (last : Hash perl) (resource : J), last.fields.progress = 100 →
      ∃ s', Halts .late (fun n => req perl o n false method uri)
        { answers := answersOf (pending ++ [last]) ++ [okay resource] }
        (verdict o method last resource) s' ∧
      s'.sent = (method, uri) :: pending.map Hash.poll ++
        (if last.fields.code = 0 ∧ method ≠ "DELETE" then [("GET", last.fields.uri)] else [])) ∧
    (pending ≠ [] → ∀ (err : Hash perl) (code : ℕ), 300 ≤ code → err.fields.progress = 100 →
      err.fields.code ≠ 0 →
      ∃ s', Halts .late (fun n => req perl o n false method uri)
        { answers := answersOf pending ++ [⟨code, some err.json⟩] } (refusal o err.json) s' ∧
      s'.sent = (method, uri) :: pending.map Hash.poll) :=
  ⟨halts_req_pending hauto method uri hpending,
    fun _ resource hdone => halts_req_done hauto method uri hpending hdone resource,
    fun hne _ _ hcode hdone herror =>
      halts_req_failed hauto method uri hpending hne hcode hdone herror⟩

/-- Values that are their fields. -/
def plain : Perl Fields where
  isTrue _ := true
  fields := some

def plainHash (f : Fields) : Hash plain where
  json := f
  fields := f
  isTrue := rfl
  fields_eq := rfl

theorem req_polls_half :
    ∃ s', Halts .late (fun n => req plain {} n false "POST" "/thing")
        { answers := answersOf ([plainHash { statusUri := "/status/s-1" },
            plainHash { progress := 50, statusUri := "/status/s-1" }] ++
              [plainHash { progress := 100, uri := "/thing/t-1" }]) ++ [okay {}] }
        (.ok (.json {})) s' ∧
      s'.sent = [("POST", "/thing"), ("GET", "/status/s-1"), ("GET", "/status/s-1"),
        ("GET", "/thing/t-1")] := by
  have hpending : ∀ x ∈ [plainHash { statusUri := "/status/s-1" },
      plainHash { progress := 50, statusUri := "/status/s-1" }], x.fields.progress ≠ 100 := by
    simp [plainHash]
  exact (req_polls (o := {}) rfl "POST" "/thing" hpending).2.1
    (plainHash { progress := 100, uri := "/thing/t-1" }) {} rfl

end Requests

end RestClient

end Gearbox
