import Mathlib.Data.List.Sort
import Gearbox.Status.Lazy
import Gearbox.Worker.Counter

/-!
# Listings of statuses

An `SQLStatusCollectionImpl` makes one query of its filters and fetches the rows into one
`SQLStatusImpl`, its cursor, of which `pop` returns a copy. The columns of a row are assigned with
the setters of the base class, and the setter of the state refuses a transition that is not
valid: the cursor then keeps the state that it has from an earlier row. The copy has not been
loaded, but it loads its row with the same setter, so that this does not help it.

Nor does the copy get the base uri that the status manager has been told. The statuses of a
listing are therefore those that `fetch` would return with an empty base uri, except for the
states, which are right if and only if every state may follow the one of the next newer status
(`doGetGlobalStatus_listing`).
-/

namespace Gearbox

namespace SqlStatus

open Json Refinement Status

variable {D : Type}

/-- What a filter demands of a row. -/
inductive Criterion where
  | progress (min max : UInt32)
  | code (min max : Int32)
  | operation (op : String)
  | component (c : String)
  | mtime (min max : Int64)
  | ctime (min max : Int64)
  | state (state : String)
  | uri (uri : String)

/-- How the database compares texts, and how it sorts rows by `ctime`. -/
structure Engine where
  /-- `=` -/
  equal : String → String → Bool
  /-- `LIKE :uri` with `"%" + uri + "%"` -/
  like : String → String → Bool
  /-- `ORDER BY ctime DESC` -/
  sort : List StatusRow → List StatusRow
  sort_perm : ∀ rows, (sort rows).Perm rows
  sort_pairwise : ∀ rows, (sort rows).Pairwise fun row row' => row'.ctime ≤ row.ctime

/-- `column = :min` where the bounds are the same, and two comparisons otherwise. -/
def inRange {α : Type} [DecidableEq α] [LE α] [DecidableLE α] (min max value : α) : Bool :=
  if min = max then value = min else min ≤ value ∧ value ≤ max

/-- The condition of a filter in the `WHERE` clause. -/
def Criterion.holds (engine : Engine) (row : StatusRow) : Criterion → Bool
  | .progress min max => inRange min max row.progress
  | .code min max => inRange min max row.code
  | .operation op => engine.equal row.operation op
  | .component c => engine.equal row.component c
  | .mtime min max => inRange min max row.mtime
  | .ctime min max => inRange min max row.ctime
  | .state text => engine.equal (state2str row.state) text
  | .uri text => engine.like row.resourceUri text

/-- `SQLStatusCollectionImpl`; `rows` are the rows of the result that are still to be
fetched. -/
structure Collection (D : Type) where
  cursor : SqlStatusImpl D
  criteria : List Criterion := []
  count : UInt32 := 10
  rows : List StatusRow := []
  fetched : Bool := false
  executed : Bool := false

/-- The result of the query. -/
def selected (engine : Engine) (t : Tables) (criteria : List Criterion) (count : UInt32) :
    List StatusRow :=
  let rows := engine.sort (t.status.filter fun row =>
    criteria.all fun criterion => criterion.holds engine row)
  if count = 0 then rows else rows.take count.toNat

namespace Collection

variable (clock : ℕ → Int64) (engine : Engine) (t : Tables) (c : Collection D)

/-- The constructor. -/
def new : Collection D where
  cursor := { toStatusImpl := StatusImpl.new clock }

def limit (count : UInt32) : Collection D :=
  { c with count := count }

/-- Any of the methods `filter_*`. -/
def filter (criterion : Criterion) : Collection D :=
  { c with criteria := c.criteria ++ [criterion] }

/-- `lst.fetch()`; a row is written to the cursor. -/
def fetch : Collection D :=
  match c.rows with
  | [] => { c with fetched := false }
  | row :: rest =>
      { c with
        cursor := { c.cursor with toStatusImpl := assignRow clock c.cursor.toStatusImpl row }
        rows := rest
        fetched := true }

/-- `SQLStatusCollectionImpl::run_query` -/
def runQuery : Collection D :=
  if c.executed then c
  else
    { fetch clock { c with rows := selected engine t c.criteria c.count } with executed := true }

/-- `SQLStatusCollectionImpl::empty` -/
def empty : Bool × Collection D :=
  let c := c.runQuery clock engine t
  (!c.fetched, c)

/-- `SQLStatusCollectionImpl::pop` -/
def pop : Except Failure (SqlStatusImpl D × Collection D) :=
  let c := c.runQuery clock engine t
  if c.fetched then return (c.cursor, c.fetch clock)
  else throw (.std "called pop() on empty status collection")

end Collection

/-- What `do_get_global_status_v1` reads of its job. -/
structure Request where
  baseUri : String
  arguments : List String
  matrix : List (String × String)

/-- `boost::lexical_cast<unsigned int>`: a minus sign counts back from `2 ^ 32`. -/
def castUnsigned (text : List Char) : Option UInt32 :=
  let digits := (unsigned text).2
  if digits ≠ [] ∧ digits.all Char.isDigit ∧ Nat.ofDigitChars 10 digits 0 < 2 ^ 32 then
    let n := UInt32.ofNat (Nat.ofDigitChars 10 digits 0)
    some (if (unsigned text).1 then -n else n)
  else none

section Handler

variable (clock : ℕ → Int64) (env : Env D) (engine : Engine) (t : Tables)

/-- A matrix argument, if there is one, with a cast that throws. -/
def castArgument {α : Type} (cast : List Char → Option α) (matrix : List (String × String))
    (key : String) : Except Failure (Option α) :=
  match matrix.lookup key with
  | none => return none
  | some text =>
      match cast text.toList with
      | some a => return some a
      | none => throw (.std "bad lexical cast")

/-- The filter for a matrix argument, if there is one. -/
def narrow {α : Type} (argument : Option α) (criterion : α → Criterion) (c : Collection D) :
    Collection D :=
  match argument with
  | none => c
  | some a => c.filter (criterion a)

/-- The limit for a matrix argument, if there is one. -/
def restrict (count : Option UInt32) (c : Collection D) : Collection D :=
  match count with
  | none => c
  | some n => c.limit n

/-- The collection of a request. -/
def collection (matrix : List (String × String)) : Except Failure (Collection D) := do
  let c := Collection.new clock
  let count ← castArgument castUnsigned matrix "_count"
  let c := restrict count c
  let progress ← castArgument Counter.castInt matrix "progress"
  let c := narrow (progress.map UInt32.ofInt) (fun n => .progress n n) c
  let code ← castArgument Counter.castInt matrix "code"
  let c := narrow (code.map Int32.ofInt) (fun n => .code n n) c
  let c := narrow (matrix.lookup "operation") .operation c
  let c := narrow (matrix.lookup "component") .component c
  let c := narrow (matrix.lookup "state") .state c
  return narrow (matrix.lookup "uri") .uri c

/-- `s->serialize()` of a status with this handle. -/
def serialized (n : ℕ) (s : SqlStatusImpl D) : Except Failure Text :=
  (outcome (serialize .sound clock env n) { tables := t, impl := s }).1

/-- One element of the array. -/
def element (expand : Bool) (n : ℕ) (s : SqlStatusImpl D) : Except Failure (Json D) := do
  if expand then
    parsed env (← serialized clock env t n s)
  else
    return .string s.name

/-- The loop over the collection, with a bound on the number of its rounds. -/
def elements (expand : Bool) (n : ℕ) : ℕ → Collection D → Except Failure (List (Json D))
  | 0, _ => throw .diverges
  | bound + 1, c => do
      let (isEmpty, c) := c.empty clock engine t
      if isEmpty then
        return []
      else
        let (s, c) ← c.pop clock engine t
        let j ← element clock env t expand n s
        return j :: (← elements expand n bound c)

/-- The text of the object that has the elements. The index of the loop is an `unsigned int`
that `operator[]` takes as an `int`. -/
def listing (statuses : List (Json D)) : Except Failure Text :=
  if statuses.length < 2 ^ 31 then
    Json.serialize env (.object [("statuses", .array statuses)])
  else
    throw .undefined

/-- `StatusManager::fetch` of a status by its name. -/
def fetched (baseUri name : String) : SqlStatusImpl D where
  toStatusImpl := { StatusImpl.setName clock (StatusImpl.new clock) name with baseUri := baseUri }
  shouldLoad := true

/-- `do_get_global_status_v1` -/
def doGetGlobalStatus (request : Request) (n : ℕ) : Except Failure Text := do
  match request.arguments with
  | [] =>
      let expand ← castArgument Counter.castInt request.matrix "_expand"
      let c ← collection clock request.matrix
      listing env (← elements clock env engine t (expand.getD 0 != 0) n n c)
  | name :: _ => serialized clock env t n (fetched clock request.baseUri name)

end Handler

section Loading

/-- The state of a status after an attempt to change it. -/
def settled (q st : State) : State :=
  if validStateTransition q st then st else q

theorem settled_settled (q st : State) : settled (settled q st) st = settled q st := by
  by_cases hvalid : validStateTransition q st = true
  · simp [settled, hvalid]
  · simp [settled, hvalid]

theorem settled_unknown (st : State) : settled .unknown st = st := by
  simp [settled]

theorem settled_eq_iff {q st : State} :
    settled q st = st ↔ validStateTransition q st = true := by
  rw [settled]
  split
  · rename_i hvalid
    exact iff_of_true rfl hvalid
  · rename_i hvalid
    refine ⟨fun h => ?_, fun h => absurd h hvalid⟩
    rw [h]
    exact validStateTransition_self st

variable {clock : ℕ → Int64} {env : Env D} {t : Tables}

variable (clock) in
/-- The columns of a row replace the fields, except for the state. -/
theorem assignRow_eq (base : StatusImpl D) (row : StatusRow) :
    ∃ asked, assignRow clock base row = { base with
      name := row.name
      operation := row.operation
      component := row.component
      progress := row.progress
      code := row.code
      resourceUri := row.resourceUri
      parentUri := row.parentUri
      ctime := row.ctime.toInt32.toInt64
      ytime := row.ytime.toInt32.toInt64
      state := settled base.state row.state
      failures := row.failures
      mtime := row.mtime.toInt32.toInt64
      asked := asked } := by
  rw [assignRow]
  obtain ⟨mtime, asked, hstate⟩ := StatusImpl.setState_eq clock
    { StatusImpl.setParentUri clock (StatusImpl.setResourceUri clock
      { StatusImpl.setProgress clock (StatusImpl.setComponent clock (StatusImpl.setOperation clock
        (StatusImpl.setName clock base row.name) row.operation) row.component) row.progress with
          code := row.code } row.resourceUri) row.parentUri with
      ctime := row.ctime.toInt32.toInt64
      ytime := row.ytime.toInt32.toInt64 } row.state
  refine ⟨asked, ?_⟩
  dsimp only
  rw [hstate]
  rfl

/-- The members of an object, or none. -/
def memberList : Json D → List (String × Json D)
  | .object o => o
  | _ => []

/-- The meta data after the rows of `status_meta` have been assigned to them. -/
def assigned (env : Env D) : List (String × Text) → Json D → Json D
  | [], j => j
  | (key, text) :: rest, j =>
      assigned env rest (match parsed env text with
        | .ok value => .object (Assoc.assign key value (memberList j))
        | .error _ => j)

/-- Every row of `status_meta` of the status has a text that can be parsed. -/
def Readable (env : Env D) (t : Tables) (name : String) : Prop :=
  ∀ key text, (key, text) ∈ t.metaOf name →
    ∃ value, parsed env text = .ok value ∧ value.copy = .ok value

variable (clock) in
theorem outcome_fetchMeta_assigned {rows : List (String × Text)}
    (hrows : ∀ key text, (key, text) ∈ rows →
      ∃ value, parsed env text = .ok value ∧ value.copy = .ok value) {s : Session D}
    (hshape : s.impl.metaData = .undef ∨ ∃ o, s.impl.metaData = .object o) :
    ∃ mtime asked, outcome (fetchMeta clock env rows) s =
      (.ok (), s.super fun base =>
        { base with metaData := assigned env rows base.metaData, mtime := mtime,
                    asked := asked }) := by
  induction rows generalizing s with
  | nil => exact ⟨s.impl.mtime, s.impl.asked, rfl⟩
  | cons row rest ih =>
      obtain ⟨key, text⟩ := row
      obtain ⟨value, hparsed, hcopy⟩ := hrows key text List.mem_cons_self
      have hstep : outcome (trySuper fun base => setMetaKey clock base key value) s =
          (.ok (), s.super fun base => StatusImpl.touch clock { base with
            metaData := .object (Assoc.assign key value (memberList base.metaData)) }) := by
        rw [trySuper, outcome_bind_ok (outcome_get s)]
        rcases hshape with hundef | ⟨o, ho⟩
        · simp only [setMetaKey, hundef, hcopy, Session.super, memberList]
          rfl
        · simp only [setMetaKey, ho, hcopy, Session.super, memberList]
          rfl
      obtain ⟨mtime, asked, hfetch⟩ := ih
        (fun key text hmem => hrows key text (List.mem_cons_of_mem _ hmem))
        (s := s.super fun base => StatusImpl.touch clock { base with
          metaData := .object (Assoc.assign key value (memberList base.metaData)) })
        (.inr ⟨_, rfl⟩)
      refine ⟨mtime, asked, ?_⟩
      rw [fetchMeta, hparsed, outcome_bind_ok (outcome_lift _ s), outcome_bind_ok hstep, hfetch]
      simp only [assigned, hparsed]
      rfl

/-- A handle that has not loaded anything yet. -/
structure Unloaded (s : SqlStatusImpl D) : Prop where
  metaData : s.metaData = .undef
  loaded : s.loaded = false
  messagesLoaded : s.messagesLoaded = false
  childrenLoaded : s.childrenLoaded = false
  metaLoaded : s.metaLoaded = false

/-- The status of a row without a base uri. -/
def resource (env : Env D) (t : Tables) (row : StatusRow) : Private D where
  messages := t.messagesOf row.name
  children := t.childrenOf row.name
  name := row.name
  operation := row.operation
  metaData := assigned env (t.metaOf row.name) .undef
  progress := row.progress
  code := row.code
  resourceUri := row.resourceUri
  parentUri := row.parentUri
  ctime := row.ctime.toInt32.toInt64
  mtime := row.mtime.toInt32.toInt64
  ytime := row.ytime.toInt32.toInt64
  state := row.state
  failures := row.failures
  component := row.component
  concurrency := row.concurrency

theorem outcome_forever_ok {α : Type} {m : SqlM D α} {s s' : Session D} {a : α}
    (h : outcome m s = (.ok a, s')) (n : ℕ) : outcome (forever m (n + 1)) s = (.ok a, s') := by
  rw [forever, outcome_retry_succ, h]

variable (clock) in
theorem outcome_messages_unloaded {s : Session D} (h : s.impl.messagesLoaded = false) (n : ℕ) :
    outcome (messages .sound clock (n + 1)) s = (.ok (s.tables.messagesOf s.impl.name), { s with
      queries := s.queries + 1
      impl := { s.impl with
        messages := s.tables.messagesOf s.impl.name
        asked := s.impl.asked + (s.tables.messagesOf s.impl.name).length
        messagesLoaded := true } }) := by
  have hload := outcome_loadMessages .sound clock (s := s)
  rw [if_neg (not_queryFails_sound _)] at hload
  rw [messages, outcome_bind_ok (outcome_get s), h]
  simp only [Bool.not_false, if_true]
  rw [outcome_bind_ok (outcome_forever_ok hload n)]
  rfl

variable (clock) in
theorem outcome_children_unloaded {s : Session D} (h : s.impl.childrenLoaded = false) (n : ℕ) :
    outcome (children .sound clock (n + 1)) s = (.ok (s.tables.childrenOf s.impl.name), { s with
      queries := s.queries + 1
      impl := { s.impl with
        children := s.tables.childrenOf s.impl.name
        asked := s.impl.asked + (s.tables.childrenOf s.impl.name).length
        childrenLoaded := true } }) := by
  have hload := outcome_loadChildren .sound clock (s := s)
  rw [if_neg (not_queryFails_sound _)] at hload
  rw [outcome_children h, outcome_forever_ok hload]

variable (clock env) in
theorem outcome_getMeta_unloaded {s : Session D} (h : s.impl.metaLoaded = false)
    (hundef : s.impl.metaData = .undef) (hread : Readable env s.tables s.impl.name) (n : ℕ) :
    ∃ asked, outcome (getMeta .sound clock env (n + 1)) s =
      (.ok (assigned env (s.tables.metaOf s.impl.name) .undef), { s with
        queries := s.queries + 1
        impl := { s.impl with
          metaData := assigned env (s.tables.metaOf s.impl.name) .undef
          asked := asked
          metaLoaded := true } }) := by
  obtain ⟨mtime, asked, hfetch⟩ := outcome_fetchMeta_assigned clock hread
    (s := { s with queries := s.queries + 1 }) (.inl hundef)
  have hload : outcome (loadMeta .sound clock env) s = (.ok (), { s with
      queries := s.queries + 1
      impl := { s.impl with
        metaData := assigned env (s.tables.metaOf s.impl.name) .undef
        asked := asked
        metaLoaded := true } }) := by
    rw [loadMeta, outcome_bind_ok (outcome_get s), outcome_bind_ok (outcome_query _),
      outcome_bind_ok hfetch, ← hundef]
    rfl
  refine ⟨asked, ?_⟩
  rw [getMeta, outcome_bind_ok (outcome_get s), h]
  simp only [Bool.not_false, if_true]
  rw [outcome_bind_ok (outcome_forever_ok hload n)]
  rfl

/-- A loop that is left in its first round, which asks for a row and gets it. -/
theorem outcome_forever_query {α β : Type} {f : Tables → Option β} {round : Option β → SqlM D α}
    {s : Session D} {b : β} (a : α) (s' : Session D) (hf : f s.tables = some b)
    (hround : outcome (round (some b)) { s with queries := s.queries + 1 } = (.ok a, s'))
    (n : ℕ) : outcome (forever (query .sound f >>= round) (n + 1)) s = (.ok a, s') := by
  refine outcome_forever_ok ?_ n
  rw [outcome_bind_ok (outcome_query _), hf]
  exact hround

variable (clock) in
theorem outcome_reallyLoad_found {s : Session D} {row : StatusRow}
    (hrow : s.tables.statusOf s.impl.name = some row) (n : ℕ) :
    outcome (reallyLoad .sound clock (n + 1)) s = (.ok (), { s with
      queries := s.queries + 1
      impl := { s.impl with
        toStatusImpl := assignRow clock s.impl.toStatusImpl row
        loaded := true
        shouldLoad := true } }) := by
  rw [reallyLoad, outcome_bind_ok (outcome_get s)]
  exact outcome_bind_ok (outcome_forever_query true _ hrow rfl n)

theorem name_of_statusOf {name : String} {row : StatusRow}
    (h : t.statusOf name = some row) : row.name = name := by
  simpa using List.find?_some h

variable (clock) in
/-- The end of `serialize` after the columns have been loaded. -/
theorem outcome_serializeCaches {s : Session D} {row : StatusRow}
    (hmessages : s.impl.messagesLoaded = false) (hchildren : s.impl.childrenLoaded = false)
    (hmeta : s.impl.metaLoaded = false) (hundef : s.impl.metaData = .undef)
    (hread : Readable env s.tables s.impl.name)
    (hrow : s.tables.statusOf s.impl.name = some row) (n : ℕ) :
    (outcome (do
      let _ ← messages .sound clock (n + 1)
      let _ ← children .sound clock (n + 1)
      let _ ← getMeta .sound clock env (n + 1)
      let s ← get
      match ← query .sound fun t => t.statusOf s.impl.name with
      | none => throw .undefined
      | some row => liftM (Private.serialize
          { s.impl.toPrivate with concurrency := row.concurrency } env)) s).1 =
      Private.serialize { s.impl.toPrivate with
        messages := s.tables.messagesOf s.impl.name
        children := s.tables.childrenOf s.impl.name
        metaData := assigned env (s.tables.metaOf s.impl.name) .undef
        concurrency := row.concurrency } env := by
  have hfirst := outcome_messages_unloaded clock hmessages n
  have hsecond := outcome_children_unloaded clock (s := { s with
    queries := s.queries + 1
    impl := { s.impl with
      messages := s.tables.messagesOf s.impl.name
      asked := s.impl.asked + (s.tables.messagesOf s.impl.name).length
      messagesLoaded := true } }) hchildren n
  obtain ⟨asked, hload⟩ := outcome_getMeta_unloaded clock env (s := { s with
    queries := s.queries + 1 + 1
    impl := { s.impl with
      messages := s.tables.messagesOf s.impl.name
      messagesLoaded := true
      children := s.tables.childrenOf s.impl.name
      asked := s.impl.asked + (s.tables.messagesOf s.impl.name).length +
        (s.tables.childrenOf s.impl.name).length
      childrenLoaded := true } }) hmeta hundef hread n
  rw [outcome_bind_ok hfirst, outcome_bind_ok hsecond, outcome_bind_ok hload,
    outcome_bind_ok (outcome_get _), outcome_bind_ok (outcome_query _)]
  dsimp only
  rw [hrow]
  rfl

variable (clock) in
/-- What a status says that has been loaded from its row. -/
theorem serialized_eq {s : SqlStatusImpl D} {row : StatusRow} (hs : Unloaded s)
    (hrow : t.statusOf s.name = some row) (hread : Readable env t row.name) (n : ℕ) :
    serialized clock env t (n + 1) s =
      Private.serialize { resource env t row with
        baseUri := s.baseUri
        state := settled s.state row.state } env := by
  have hname := name_of_statusOf hrow
  obtain ⟨asked, hassign⟩ := assignRow_eq clock s.toStatusImpl row
  have hload := outcome_reallyLoad_found clock (s := { tables := t, impl := s }) hrow n
  rw [serialized, serialize, outcome_bind_ok (outcome_get _)]
  simp only [hs.loaded, Bool.not_false, if_true]
  rw [outcome_bind_ok hload, hassign]
  rw [← hname] at hrow
  exact outcome_serializeCaches clock hs.messagesLoaded hs.childrenLoaded hs.metaLoaded
    hs.metaData hread hrow n

end Loading

section Cursor

/-- The states of the cursor as it fetches one row after the other. -/
def cursorStates : State → List StatusRow → List State
  | _, [] => []
  | q, row :: rest => settled q row.state :: cursorStates (settled q row.state) rest

/-- The cursor has the states of its rows as long as each of them may follow the one before. -/
theorem cursorStates_eq_iff (q : State) (rows : List StatusRow) :
    cursorStates q rows = rows.map StatusRow.state ↔
      (q :: rows.map StatusRow.state).IsChain fun st st' => validStateTransition st st' := by
  induction rows generalizing q with
  | nil => simp [cursorStates]
  | cons row rest ih =>
      rw [cursorStates, List.map_cons, List.cons.injEq, List.isChain_cons_cons, settled_eq_iff]
      refine and_congr_right fun hvalid => ?_
      rw [settled_eq_iff.mpr hvalid]
      exact ih row.state

variable {clock : ℕ → Int64} {env : Env D} {engine : Engine} {t : Tables} {c : Collection D}

/-- The element for a row while the cursor has the state `q`. -/
def entry (env : Env D) (t : Tables) (expand : Bool) (row : StatusRow) (q : State) :
    Except Failure (Json D) := do
  if expand then
    parsed env (← Private.serialize { resource env t row with state := q } env)
  else
    return .string row.name

/-- A cursor that has loaded nothing but columns. -/
structure Bare (s : SqlStatusImpl D) : Prop extends Unloaded s where
  baseUri : s.baseUri = ""

variable (clock) in
theorem Bare.assignRow {s : SqlStatusImpl D} (h : Bare s) (row : StatusRow) :
    Bare { s with toStatusImpl := assignRow clock s.toStatusImpl row } := by
  obtain ⟨asked, hassign⟩ := assignRow_eq clock s.toStatusImpl row
  rw [hassign]
  exact ⟨⟨h.metaData, h.loaded, h.messagesLoaded, h.childrenLoaded, h.metaLoaded⟩, h.baseUri⟩

variable (clock engine t) in
theorem Collection.runQuery_of_executed (h : c.executed = true) :
    c.runQuery clock engine t = c := by
  rw [runQuery, if_pos h]

variable (clock engine t c) in
theorem Collection.executed_runQuery : (c.runQuery clock engine t).executed = true := by
  rw [runQuery]
  split
  · assumption
  · rfl

theorem Collection.executed_fetch : (c.fetch clock).executed = c.executed := by
  rw [fetch]
  split
  · rfl
  · rfl

/-- The query is made by the first call. -/
theorem elements_runQuery (expand : Bool) (n bound : ℕ) :
    elements clock env engine t expand n bound (c.runQuery clock engine t) =
      elements clock env engine t expand n bound c := by
  cases bound with
  | zero => rfl
  | succ bound =>
      have hquery := Collection.runQuery_of_executed clock engine t
        (Collection.executed_runQuery clock engine t c)
      rw [elements, elements, Collection.empty, Collection.empty, hquery]

variable (clock) in
/-- The element that is made of a copy of the cursor, after it has fetched the row. -/
theorem element_eq {s : SqlStatusImpl D} {row : StatusRow} (hs : Bare s)
    (hrow : t.statusOf row.name = some row) (expand : Bool)
    (hread : expand = true → Readable env t row.name) (n : ℕ) :
    element clock env t expand (n + 1)
        { s with toStatusImpl := assignRow clock s.toStatusImpl row } =
      entry env t expand row (settled s.state row.state) := by
  have hbare := hs.assignRow clock row
  obtain ⟨asked, hassign⟩ := assignRow_eq clock s.toStatusImpl row
  rw [hassign] at hbare ⊢
  rw [element, entry]
  split
  · rename_i hexpand
    have hserialized := serialized_eq clock hbare.toUnloaded hrow (hread hexpand) n
    rw [hserialized, settled_settled]
    dsimp only
    rw [hs.baseUri]
    rfl
  · rfl

/-- The loop over a collection that has made its query. -/
theorem elements_fetch (hc : Bare c.cursor) (hexecuted : c.executed = true)
    (expand : Bool) (hrows : ∀ row ∈ c.rows, t.statusOf row.name = some row ∧
      (expand = true → Readable env t row.name))
    (n : ℕ) {bound : ℕ} (hbound : c.rows.length < bound) :
    elements clock env engine t expand (n + 1) bound (c.fetch clock) =
      (c.rows.zip (cursorStates c.cursor.state c.rows)).mapM fun x =>
        entry env t expand x.1 x.2 := by
  induction bound generalizing c with
  | zero => exact absurd hbound (Nat.not_lt_zero _)
  | succ bound ih =>
      have hquery := Collection.runQuery_of_executed clock engine t (c := c.fetch clock)
        (Collection.executed_fetch.trans hexecuted)
      cases hrest : c.rows with
      | nil =>
          rw [elements, Collection.empty, hquery, Collection.fetch, hrest]
          rfl
      | cons row rest =>
          obtain ⟨hrow, hread⟩ := hrows row (by rw [hrest]; exact .head _)
          have helement := element_eq clock hc hrow expand hread n
          let c' : Collection D := { c with
            cursor := { c.cursor with toStatusImpl := assignRow clock c.cursor.toStatusImpl row }
            rows := rest
            fetched := true }
          have hfetch : c.fetch clock = c' := by
            rw [Collection.fetch, hrest]
          have hstate : c'.cursor.state = settled c.cursor.state row.state := by
            obtain ⟨asked, hassign⟩ := assignRow_eq clock c.cursor.toStatusImpl row
            exact congrArg (fun s => s.state) hassign
          have hnext := ih (c := c') (hc.assignRow clock row) hexecuted
            (fun row hrow => hrows row (by rw [hrest]; exact .tail _ hrow))
            (by rw [hrest] at hbound; exact Nat.lt_of_succ_lt_succ hbound)
          rw [hfetch] at hquery ⊢
          rw [elements, Collection.empty, hquery]
          dsimp only
          rw [if_neg (by simp [c']), Collection.pop, hquery]
          rw [if_pos rfl, pure_bind]
          dsimp only
          rw [hnext, hstate, cursorStates, List.zip_cons_cons, List.mapM_cons]
          exact congrArg (· >>= _) helement

/-- The name is the primary key. -/
theorem statusOf_of_mem (hkey : (t.status.map StatusRow.name).Nodup) {row : StatusRow}
    (hrow : row ∈ t.status) : t.statusOf row.name = some row := by
  cases hfound : t.statusOf row.name with
  | none =>
      have hnone := List.find?_eq_none.mp hfound row hrow
      exact absurd (decide_eq_true rfl) hnone
  | some row' =>
      have hmem : row' ∈ t.status := List.mem_of_find?_eq_some hfound
      rw [List.inj_on_of_nodup_map hkey hmem hrow (name_of_statusOf hfound)]

/-- The first rows of some that are sorted by `ctime`, or all of them where `count` is zero. -/
structure Newest (rows wanted : List StatusRow) (count : UInt32) : Prop where
  perm : ∃ rest, (rows ++ rest).Perm wanted ∧
    ∀ row ∈ rows, ∀ row' ∈ rest, row'.ctime ≤ row.ctime
  pairwise : rows.Pairwise fun row row' => row'.ctime ≤ row.ctime
  length : rows.length = if count = 0 then wanted.length else min count.toNat wanted.length

theorem newest_selected (engine : Engine) (t : Tables) (criteria : List Criterion)
    (count : UInt32) :
    Newest (selected engine t criteria count)
      (t.status.filter fun row => criteria.all fun criterion => criterion.holds engine row)
      count := by
  rw [selected]
  generalize t.status.filter (fun row =>
    criteria.all fun criterion => criterion.holds engine row) = wanted
  have hperm := engine.sort_perm wanted
  have hsorted := engine.sort_pairwise wanted
  by_cases hcount : count = 0
  · rw [if_pos hcount]
    refine ⟨⟨[], ?_, fun _ _ row' hrow' => absurd hrow' List.not_mem_nil⟩, hsorted, ?_⟩
    · rw [List.append_nil]
      exact hperm
    · rw [if_pos hcount]
      exact hperm.length_eq
  · rw [if_neg hcount]
    have hsplit := List.take_append_drop count.toNat (engine.sort wanted)
    rw [← hsplit, List.pairwise_append] at hsorted
    refine ⟨⟨(engine.sort wanted).drop count.toNat, ?_, hsorted.2.2⟩, hsorted.1, ?_⟩
    · rw [hsplit]
      exact hperm
    · rw [if_neg hcount, List.length_take, hperm.length_eq]

theorem mem_of_mem_selected {criteria : List Criterion} {count : UInt32} {row : StatusRow}
    (h : row ∈ selected engine t criteria count) : row ∈ t.status := by
  obtain ⟨rest, hperm, -⟩ := (newest_selected engine t criteria count).perm
  exact (List.mem_filter.mp (hperm.subset (List.mem_append_left _ h))).1

theorem bare_new : Bare (Collection.new clock : Collection D).cursor :=
  ⟨⟨rfl, rfl, rfl, rfl, rfl⟩, rfl⟩

/-- The collection is as it was made, except for its filters and its limit. -/
def Prepared (clock : ℕ → Int64) (c : Collection D) : Prop :=
  ∃ criteria count, c = { Collection.new clock with criteria := criteria, count := count }

theorem Prepared.narrow {α : Type} (h : Prepared clock c) (argument : Option α)
    (criterion : α → Criterion) : Prepared clock (narrow argument criterion c) := by
  obtain ⟨criteria, count, rfl⟩ := h
  cases argument with
  | none => exact ⟨criteria, count, rfl⟩
  | some a => exact ⟨criteria ++ [criterion a], count, rfl⟩

theorem prepared_restrict (count : Option UInt32) :
    Prepared clock (restrict count (Collection.new clock : Collection D)) := by
  cases count with
  | none => exact ⟨[], 10, rfl⟩
  | some n => exact ⟨[], n, rfl⟩

theorem prepared_collection {matrix : List (String × String)}
    (h : collection clock matrix = .ok c) : Prepared clock c := by
  obtain ⟨count, -, h⟩ := bind_eq_ok.mp h
  obtain ⟨progress, -, h⟩ := bind_eq_ok.mp h
  obtain ⟨code, -, h⟩ := bind_eq_ok.mp h
  cases h
  exact ((((((prepared_restrict count).narrow _ _).narrow _ _).narrow _ _).narrow _ _).narrow _
    _).narrow _ _

/-- The first call of a method makes the query. -/
theorem Prepared.runQuery (h : Prepared clock c) : c.runQuery clock engine t =
    { c with rows := selected engine t c.criteria c.count, executed := true }.fetch clock := by
  obtain ⟨criteria, count, rfl⟩ := h
  rw [Collection.runQuery, Collection.fetch, Collection.fetch]
  dsimp only [Collection.new, Bool.false_eq_true, if_false]
  cases selected engine t criteria count with
  | nil => rfl
  | cons row rest => rfl

variable (clock env engine) in
/-- A request for all statuses lists the newest ones that its filters select. What it says of a
status is what a request for it says, except for the base uri and the state; all states are
right if and only if each may follow the one of the next newer status. The texts of
`status_meta` have to be readable where they are read. -/
theorem doGetGlobalStatus_listing (hkey : (t.status.map StatusRow.name).Nodup) (request : Request)
    (harguments : request.arguments = []) {expand : Option ℤ}
    (hexpand : castArgument Counter.castInt request.matrix "_expand" = .ok expand)
    (hcollection : collection clock request.matrix = .ok c) :
    ∃ rows, Newest rows
        (t.status.filter fun row => c.criteria.all fun criterion => criterion.holds engine row)
        c.count ∧
      (((expand.getD 0 != 0) = true → ∀ row ∈ rows, Readable env t row.name) →
        ∀ n, rows.length < n → doGetGlobalStatus clock env engine t request n =
          ((rows.zip (cursorStates .unknown rows)).mapM fun x =>
            entry env t (expand.getD 0 != 0) x.1 x.2) >>= listing env) ∧
      (cursorStates .unknown rows = rows.map StatusRow.state ↔
        (rows.map StatusRow.state).IsChain fun st st' => validStateTransition st st') ∧
      ∀ row ∈ t.status, Readable env t row.name → ∀ n, 0 < n →
        doGetGlobalStatus clock env engine t { request with arguments := [row.name] } n =
          Private.serialize { resource env t row with baseUri := request.baseUri } env := by
  have hnewest := newest_selected engine t c.criteria c.count
  refine ⟨selected engine t c.criteria c.count, hnewest, fun hread n hn => ?_, ?_,
    fun row hrow hread n hn => ?_⟩
  · have hprepared := prepared_collection hcollection
    obtain ⟨n, rfl⟩ := Nat.exists_eq_add_one_of_ne_zero (Nat.ne_of_gt (Nat.zero_lt_of_lt hn))
    have hloop : elements clock env engine t (expand.getD 0 != 0) (n + 1) (n + 1) c =
        ((selected engine t c.criteria c.count).zip (cursorStates .unknown
          (selected engine t c.criteria c.count))).mapM fun x =>
          entry env t (expand.getD 0 != 0) x.1 x.2 := by
      rw [← elements_runQuery, hprepared.runQuery]
      obtain ⟨criteria, count, rfl⟩ := hprepared
      exact elements_fetch (c := { Collection.new clock with
          criteria := criteria
          count := count
          rows := selected engine t criteria count
          executed := true })
        bare_new rfl _ (fun row hrow => ⟨statusOf_of_mem hkey (mem_of_mem_selected hrow),
          fun hexpanded => hread hexpanded row hrow⟩) n hn
    rw [doGetGlobalStatus, harguments]
    dsimp only
    rw [hexpand, hcollection, ok_bind, ok_bind, hloop]
  · rw [cursorStates_eq_iff]
    cases (selected engine t c.criteria c.count).map StatusRow.state with
    | nil => simp
    | cons st rest => simp [List.isChain_cons_cons]
  · obtain ⟨n, rfl⟩ := Nat.exists_eq_add_of_le' hn
    have hunloaded : Unloaded (fetched clock request.baseUri row.name : SqlStatusImpl D) :=
      ⟨rfl, rfl, rfl, rfl, rfl⟩
    refine (serialized_eq clock hunloaded (statusOf_of_mem hkey hrow) hread n).trans ?_
    have hstate : settled (fetched (D := D) clock request.baseUri row.name).state row.state =
        row.state := settled_unknown row.state
    rw [hstate]
    rfl

end Cursor

section Samples

def sampleRow (name : String) (state : State) (ctime : Int64) : StatusRow where
  name := name
  operation := "do_thing"
  component := "thing"
  progress := 0
  code := -1
  resourceUri := "http://host/thing/" ++ name
  parentUri := ""
  ctime := ctime
  mtime := ctime
  ytime := -1
  state := state
  failures := 0

/-- A cancelled status that is newer than a running one with meta data. -/
def twoStatuses : Tables where
  status := [sampleRow "s-1" .running 1, sampleRow "s-2" .cancelled 2]
  statusMeta := [⟨"s-1", "host", .document (.string "web-1")⟩]

example : cursorStates .unknown [sampleRow "s-2" .cancelled 2, sampleRow "s-1" .running 1] =
    [.cancelled, .cancelled] := rfl

/-- A database that compares texts byte by byte. -/
def plainEngine : Engine where
  equal text text' := text = text'
  like text part := part.toList <:+: text.toList
  sort rows := rows.insertionSort fun row row' => row'.ctime ≤ row.ctime
  sort_perm rows := List.perm_insertionSort _ rows
  sort_pairwise rows := List.pairwise_insertionSort _ rows

theorem readable_twoStatuses (name : String) : Readable wholeNumbers twoStatuses name := by
  intro key text hmem
  obtain ⟨row, hrow, heq⟩ := List.mem_map.mp hmem
  obtain rfl := List.mem_singleton.mp (List.mem_of_mem_filter hrow)
  cases heq
  exact ⟨.string "web-1", rfl, rfl⟩

theorem doGetGlobalStatus_listing_two :
    ∃ rows, Newest rows twoStatuses.status 10 ∧
      (∀ n, rows.length < n →
        doGetGlobalStatus (fun _ => 0) wholeNumbers plainEngine twoStatuses
            ⟨"http://host/", [], [("_expand", "1")]⟩ n =
          ((rows.zip (cursorStates .unknown rows)).mapM fun x =>
            entry wholeNumbers twoStatuses true x.1 x.2) >>= listing wholeNumbers) ∧
      (cursorStates .unknown rows = rows.map StatusRow.state ↔
        (rows.map StatusRow.state).IsChain fun st st' => validStateTransition st st') ∧
      ∀ row ∈ twoStatuses.status, ∀ n, 0 < n →
        doGetGlobalStatus (fun _ => 0) wholeNumbers plainEngine twoStatuses
            ⟨"http://host/", [row.name], [("_expand", "1")]⟩ n =
          Private.serialize { resource wholeNumbers twoStatuses row with
            baseUri := "http://host/" } wholeNumbers := by
  have hexpand : castArgument Counter.castInt [("_expand", "1")] "_expand" = .ok (some 1) := by
    rfl
  have hcollection : collection (D := ℤ) (fun _ => 0) [("_expand", "1")] =
      .ok (Collection.new fun _ => 0) := by
    rfl
  obtain ⟨rows, hnewest, hlisting, hstates, hsingle⟩ := doGetGlobalStatus_listing (fun _ => 0)
    wholeNumbers plainEngine (t := twoStatuses) (by decide)
    ⟨"http://host/", [], [("_expand", "1")]⟩ rfl hexpand hcollection
  exact ⟨rows, hnewest, hlisting fun _ row _ => readable_twoStatuses row.name, hstates,
    fun row hrow => hsingle row hrow (readable_twoStatuses row.name)⟩

end Samples

end SqlStatus

end Gearbox
