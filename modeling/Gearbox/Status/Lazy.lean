import Mathlib.Logic.Relation
import Gearbox.Json.Agreement
import Gearbox.Refinement.Fails
import Gearbox.Status.Stored

/-!
# The caches of a SQL status

The messages, the children and the meta data of a status are loaded when they are asked
for, and every mutator changes the cache and the table. `add_message` does not load what
is not loaded, which is harmless since `messages()` starts with an empty cache.
`meta( meta )` empties the table and leaves the cache, so that the keys of the cache that
the new object lacks stay in it, and `meta()` returns them.

`Coherent` is what holds between the caches and the tables as long as no call drops a key
of the cache and every value comes back from its text. The database answers every
statement, so that each loop ends in its first round or not at all.
-/

namespace Gearbox

namespace SqlStatus

open Json Refinement Status

variable {D : Type}

section Settles

variable {α β : Type} {p : ℕ → SqlM D α} {s s' : Session D}

/-- All loops of the program end in their first round, and the end satisfies `Q`. -/
def Settles (p : ℕ → SqlM D α) (s : Session D)
    (Q : Except Failure α → Session D → Prop) : Prop :=
  ∃ r s', (∀ n, outcome (p (n + 1)) s = (r, s')) ∧ Q r s'

theorem Settles.mono {Q Q' : Except Failure α → Session D → Prop} (h : Settles p s Q)
    (hQ : ∀ r s', Q r s' → Q' r s') : Settles p s Q' := by
  obtain ⟨r, s', hp, hq⟩ := h
  exact ⟨r, s', hp, hQ r s' hq⟩

theorem settles_of_outcome {m : SqlM D α} {Q : Except Failure α → Session D → Prop}
    (h : Q (outcome m s).1 (outcome m s).2) : Settles (fun _ => m) s Q :=
  ⟨_, _, fun _ => rfl, h⟩

/-- The same program from another state. -/
theorem Settles.congr {q : ℕ → SqlM D α} {s₁ : Session D}
    {Q : Except Failure α → Session D → Prop} (hq : Settles q s₁ Q)
    (h : ∀ n, outcome (p n) s = outcome (q n) s₁) : Settles p s Q := by
  obtain ⟨r, s', hq, hQ⟩ := hq
  exact ⟨r, s', fun n => (h (n + 1)).trans (hq n), hQ⟩

/-- The first round of a loop. -/
theorem settles_forever {m : SqlM D α} {a : α} {Q : Except Failure α → Session D → Prop}
    (hm : outcome m s = (.ok a, s')) (h : Q (.ok a) s') : Settles (forever m) s Q := by
  refine ⟨_, _, fun n => ?_, h⟩
  rw [forever, outcome_retry_succ, hm]

/-- The sequencing rule. -/
theorem Settles.bind {q : ℕ → α → SqlM D β} {Q : Except Failure β → Session D → Prop}
    (h : Settles p s fun r s' =>
      match r with
      | .ok a => Settles (fun n => q n a) s' Q
      | .error e => Q (.error e) s') :
    Settles (fun n => p n >>= q n) s Q := by
  obtain ⟨r, s₁, hp, hq⟩ := h
  cases r with
  | error e => exact ⟨_, _, fun n => outcome_bind_error (hp n), hq⟩
  | ok a =>
      obtain ⟨r', s', hq, hQ⟩ := hq
      refine ⟨r', s', fun n => ?_, hQ⟩
      rw [outcome_bind_ok (hp n)]
      exact hq n

/-- A program without loops in front of another one. -/
theorem settles_bind {m : SqlM D α} {a : α} {q : ℕ → α → SqlM D β}
    {Q : Except Failure β → Session D → Prop} (hm : outcome m s = (.ok a, s'))
    (h : Settles (fun n => q n a) s' Q) : Settles (fun n => m >>= q n) s Q := by
  refine Settles.bind (settles_of_outcome ?_)
  rw [hm]
  exact h

theorem Settles.of_halts {Q : Except Failure α → Session D → Prop} (h : Settles p s Q)
    {r : Except Failure α} (hend : Halts .diverges p s r s') : Q r s' := by
  obtain ⟨r', s'', hp, hq⟩ := h
  obtain ⟨-, bound, hbound⟩ := hend
  have heq := hp bound
  rw [hbound (bound + 1) (Nat.le_succ bound), Prod.mk.injEq] at heq
  obtain ⟨rfl, rfl⟩ := heq
  exact hq

theorem Settles.halts {Q : Except Failure α → Session D → Prop} (h : Settles p s Q)
    (hQ : ∀ s', ¬ Q (.error .diverges) s') :
    ∃ r s', Halts .diverges p s r s' ∧ Q r s' := by
  obtain ⟨r, s', hp, hq⟩ := h
  refine ⟨r, s', ⟨?_, 1, fun n hn => ?_⟩, hq⟩
  · rintro rfl
    exact hQ s' hq
  · obtain ⟨n, rfl⟩ := Nat.exists_eq_add_of_le' hn
    exact hp n

end Settles

section Exceptions

variable {α β : Type}

/-- A failure of the program is an exception. -/
def Raised (r : Except Failure α) : Prop :=
  ∀ e, r = .error e → e.isException = true

theorem raised_pure (a : α) : Raised (pure a) := nofun

theorem raised_std (text : String) : Raised (throw (.std text) : Except Failure α) :=
  failsWith_error rfl

theorem Raised.bind {r : Except Failure α} {f : α → Except Failure β} (hr : Raised r)
    (hf : ∀ a, Raised (f a)) : Raised (r >>= f) :=
  FailsWith.bind hr fun a _ => hf a

theorem raised_requireHttpx (u : Uri) (name : String) : Raised (u.requireHttpx name) := by
  rw [Uri.requireHttpx]
  split
  · exact raised_std _
  · exact raised_pure _

theorem raised_parseUserInfo (u : Uri) (authority : List Char) :
    Raised (u.parseUserInfo authority) := by
  rw [Uri.parseUserInfo]
  split
  · refine (Raised.bind (raised_requireHttpx _ _) fun _ => raised_pure _).bind fun u => ?_
    split
    · refine (Raised.bind (raised_requireHttpx _ _) fun _ => raised_pure _).bind fun u => ?_
      exact (Raised.bind (raised_requireHttpx _ _) fun _ => raised_pure _).bind fun u =>
        raised_pure _
    · exact raised_pure _
  · exact raised_pure _

theorem raised_parseAuthority (u : Uri) (authority : List Char) :
    Raised (u.parseAuthority authority) := by
  rw [Uri.parseAuthority]
  split
  · exact raised_std _
  · apply (raised_parseUserInfo u authority).bind
    rintro ⟨u, nl⟩
    dsimp only
    split
    · exact (Raised.bind (raised_requireHttpx _ _) fun _ => raised_pure _).bind fun u =>
        Raised.bind (raised_requireHttpx _ _) fun _ => raised_pure _
    · exact Raised.bind (raised_requireHttpx _ _) fun _ => raised_pure _

theorem raised_parseRest (u : Uri) (uri : List Char) : Raised (u.parseRest uri) := by
  have hsuffix : ∀ c name (f : Uri → List Char → Uri) (u : Uri) (uri : List Char),
      Raised (Uri.parseSuffix c (fun u text => do
        u.requireHttpx name
        return f u text) u uri) := by
    intro c name f u uri
    rw [Uri.parseSuffix]
    split
    · exact (Raised.bind (raised_requireHttpx _ _) fun _ => raised_pure _).bind fun _ =>
        raised_pure _
    · exact raised_pure _
  have hport : ∀ u : Uri, Raised u.parsePort := by
    intro u
    rw [Uri.parsePort]
    split
    · split
      · exact Raised.bind (raised_requireHttpx _ _) fun _ => raised_pure _
      · split
        · exact Raised.bind (raised_requireHttpx _ _) fun _ => raised_pure _
        · exact raised_pure _
    · exact raised_pure _
  apply (hsuffix '#' "fragment" (fun u text => { u with fragment := text }) u uri).bind
  rintro ⟨u, uri⟩
  apply (hsuffix '?' "query" (fun u text => { u with query := text }) u uri).bind
  rintro ⟨u, uri⟩
  exact (hport u).bind fun u => raised_pure _

/-- A text that is not a uri raises an exception. -/
theorem raised_parse (uristr : List Char) : Raised (Uri.parse uristr) := by
  rw [Uri.parse]
  split
  · exact raised_std _
  · have hscheme : ∀ u scheme, Raised (Uri.setScheme u scheme) := by
      intro u scheme
      rw [Uri.setScheme]
      split
      · exact raised_std _
      · exact raised_pure _
    refine (hscheme _ _).bind fun u => ?_
    split
    · exact raised_pure _
    · exact (raised_parseAuthority u _).bind fun u => raised_parseRest u _

end Exceptions

section Coherent

variable (env : Env D)

/-- The value of a key in the rows of the status. -/
def rowValue (s : Session D) (key : String) : Option (Json D) :=
  ((s.tables.metaOf s.impl.name).lookup key).bind fun text => value? (parsed env text)

/-- The caches hold what the tables hold, as far as they are loaded. The meta data of the
keys `pending` are about to be stored. -/
structure CoherentUpTo (pending : List String) (s : Session D) : Prop where
  messages : s.impl.messagesLoaded = true → s.impl.messages = s.tables.messagesOf s.impl.name
  children : s.impl.childrenLoaded = true → s.impl.children = s.tables.childrenOf s.impl.name
  nodup : ((s.tables.metaOf s.impl.name).map Prod.fst).Nodup
  readable : ∀ key text, (key, text) ∈ s.tables.metaOf s.impl.name →
    ∃ value, parsed env text = .ok value ∧ value.copy = .ok value
  shape : s.impl.metaData = .undef ∨ ∃ o, s.impl.metaData = .object o
  stored : ∀ key, s.impl.metaData.hasKey key = true →
    key ∈ (s.tables.metaOf s.impl.name).map Prod.fst ∨ key ∈ pending
  loaded : s.impl.metaLoaded = true → ∀ key, key ∉ pending →
    s.impl.metaData.member key = rowValue env s key

abbrev Coherent (s : Session D) : Prop :=
  CoherentUpTo env [] s

variable {env} {clock : ℕ → Int64} {s : Session D} {pending : List String}

theorem rowValue_eq_none {key : String}
    (h : key ∉ (s.tables.metaOf s.impl.name).map Prod.fst) : rowValue env s key = none := by
  have hlookup : (s.tables.metaOf s.impl.name).lookup key = none := by
    rw [← Option.not_isSome_iff_eq_none, Assoc.isSome_lookup, decide_eq_true_iff]
    exact h
  rw [rowValue, hlookup]
  rfl

theorem CoherentUpTo.weaken (h : Coherent env s) (pending : List String) :
    CoherentUpTo env pending s where
  messages := h.messages
  children := h.children
  nodup := h.nodup
  readable := h.readable
  shape := h.shape
  stored key hkey := .inl ((h.stored key hkey).resolve_right List.not_mem_nil)
  loaded hloaded key _ := h.loaded hloaded key List.not_mem_nil

/-- What the caches and the tables are compared by is the same. -/
structure Same (s s' : Session D) : Prop where
  messageRows : s'.tables.messages = s.tables.messages
  childRows : s'.tables.childUri = s.tables.childUri
  metaRows : s'.tables.statusMeta = s.tables.statusMeta
  name : s'.impl.name = s.impl.name
  messages : s'.impl.messages = s.impl.messages
  children : s'.impl.children = s.impl.children
  metaData : s'.impl.metaData = s.impl.metaData
  messagesLoaded : s'.impl.messagesLoaded = s.impl.messagesLoaded
  childrenLoaded : s'.impl.childrenLoaded = s.impl.childrenLoaded
  metaLoaded : s'.impl.metaLoaded = s.impl.metaLoaded

theorem CoherentUpTo.congr {s' : Session D} (h : CoherentUpTo env pending s) (hsame : Same s s') :
    CoherentUpTo env pending s' := by
  obtain ⟨hmr, hcr, hmetaRows, hname, hmessages, hchildren, hmeta, hml, hcl, hme⟩ := hsame
  have hmessagesOf : s'.tables.messagesOf s'.impl.name = s.tables.messagesOf s.impl.name := by
    rw [Tables.messagesOf, Tables.messagesOf, hmr, hname]
  have hchildrenOf : s'.tables.childrenOf s'.impl.name = s.tables.childrenOf s.impl.name := by
    rw [Tables.childrenOf, Tables.childrenOf, hcr, hname]
  have hmetaOf : s'.tables.metaOf s'.impl.name = s.tables.metaOf s.impl.name := by
    rw [Tables.metaOf, Tables.metaOf, hmetaRows, hname]
  have hvalue : rowValue env s' = rowValue env s := by
    funext key
    rw [rowValue, rowValue, hmetaOf]
  constructor
  · rw [hml, hmessages, hmessagesOf]
    exact h.messages
  · rw [hcl, hchildren, hchildrenOf]
    exact h.children
  · rw [hmetaOf]
    exact h.nodup
  · rw [hmetaOf]
    exact h.readable
  · rw [hmeta]
    exact h.shape
  · rw [hmeta, hmetaOf]
    exact h.stored
  · rw [hme, hmeta, hvalue]
    exact h.loaded

section Reads

/-- A call that reads a cache: it returns the rows, and it leaves the tables. -/
structure ReadsRows {α : Type} (env : Env D) (pending : List String) (s : Session D)
    (P : α → Prop) (r : Except Failure α) (s' : Session D) : Prop where
  result : ∃ a, r = .ok a ∧ P a
  tables : s'.tables = s.tables
  name : s'.impl.name = s.impl.name
  coherent : CoherentUpTo env pending s'

theorem not_queryFails_sound (n : ℕ) : ¬ Server.sound.queryFails n = true :=
  Bool.false_ne_true

variable (clock) in
theorem settles_messages (h : CoherentUpTo env pending s) :
    Settles (messages .sound clock) s
      (ReadsRows env pending s (· = s.tables.messagesOf s.impl.name)) := by
  cases hloaded : s.impl.messagesLoaded with
  | true =>
      refine ⟨.ok s.impl.messages, s, fun n => ?_, ⟨_, rfl, h.messages hloaded⟩, rfl, rfl, h⟩
      rw [messages, outcome_bind_ok (outcome_get s), hloaded]
      rfl
  | false =>
      have hload := outcome_loadMessages .sound clock (s := s)
      rw [if_neg (not_queryFails_sound _)] at hload
      have hread : Settles (fun n => do
          forever (loadMessages .sound clock) n
          return (← get).impl.messages) s
          (ReadsRows env pending s (· = s.tables.messagesOf s.impl.name)) :=
        Settles.bind (settles_forever hload (settles_of_outcome
          ⟨⟨_, rfl, rfl⟩, rfl, rfl, fun _ => rfl, h.children, h.nodup, h.readable, h.shape,
            h.stored, h.loaded⟩))
      refine hread.congr fun n => ?_
      rw [messages, outcome_bind_ok (outcome_get s), hloaded]
      rfl

variable (clock) in
theorem settles_children (h : CoherentUpTo env pending s) :
    Settles (children .sound clock) s
      (ReadsRows env pending s (· = s.tables.childrenOf s.impl.name)) := by
  cases hloaded : s.impl.childrenLoaded with
  | true =>
      refine ⟨.ok s.impl.children, s, fun n => ?_, ⟨_, rfl, h.children hloaded⟩, rfl, rfl, h⟩
      rw [children, outcome_bind_ok (outcome_get s), hloaded]
      rfl
  | false =>
      have hload := outcome_loadChildren .sound clock (s := s)
      rw [if_neg (not_queryFails_sound _)] at hload
      have hread : Settles (fun n => do
          forever (loadChildren .sound clock) n
          return (← get).impl.children) s
          (ReadsRows env pending s (· = s.tables.childrenOf s.impl.name)) :=
        Settles.bind (settles_forever hload (settles_of_outcome
          ⟨⟨_, rfl, rfl⟩, rfl, rfl, h.messages, fun _ => rfl, h.nodup, h.readable, h.shape,
            h.stored, h.loaded⟩))
      refine hread.congr fun n => ?_
      rw [children, outcome_bind_ok (outcome_get s), hloaded]
      rfl

theorem member_assign (o : List (String × Json D)) (key key' : String) (value : Json D) :
    (object (Assoc.assign key value o)).member key' =
      if key' = key then some value else (object o).member key' :=
  Assoc.lookup_assign key key' value o

variable (clock) in
/-- `StatusImpl::meta( key, value )` on a cache that can take it. -/
theorem setMetaKey_eq_ok {base : StatusImpl D} {value : Json D}
    (hshape : base.metaData = .undef ∨ ∃ o, base.metaData = .object o)
    (hvalue : value.copy = .ok value) (key : String) :
    ∃ o mtime asked, setMetaKey clock base key value =
        .ok { base with metaData := .object o, mtime := mtime, asked := asked } ∧
      ∀ key', (object o).member key' =
        if key' = key then some value else base.metaData.member key' := by
  rcases hshape with hundef | ⟨o, ho⟩
  · refine ⟨Assoc.assign key value [], clock base.asked, base.asked + 1, ?_, fun key' => ?_⟩
    · rw [setMetaKey, hundef, hvalue]
      rfl
    · rw [member_assign, hundef]
      rfl
  · refine ⟨Assoc.assign key value o, clock base.asked, base.asked + 1, ?_, fun key' => ?_⟩
    · rw [setMetaKey, ho, hvalue]
      rfl
    · rw [member_assign, ho]

variable (clock) in
/-- The rows of `status_meta` replace the members of the cache. -/
theorem outcome_fetchMeta {rows : List (String × Text)}
    (hrows : ∀ key text, (key, text) ∈ rows →
      ∃ value, parsed env text = .ok value ∧ value.copy = .ok value)
    (hnodup : (rows.map Prod.fst).Nodup) {s : Session D}
    (hshape : s.impl.metaData = .undef ∨ ∃ o, s.impl.metaData = .object o) :
    ∃ metaData mtime asked, outcome (fetchMeta clock env rows) s =
        (.ok (), s.super fun base =>
          { base with metaData := metaData, mtime := mtime, asked := asked }) ∧
      (metaData = .undef ∨ ∃ o, metaData = .object o) ∧
      ∀ key, metaData.member key =
        if key ∈ rows.map Prod.fst then
          (rows.lookup key).bind fun text => value? (parsed env text)
        else s.impl.metaData.member key := by
  induction rows generalizing s with
  | nil =>
      refine ⟨s.impl.metaData, s.impl.mtime, s.impl.asked, rfl, hshape, fun key => ?_⟩
      rw [if_neg (by simp)]
  | cons row rest ih =>
      obtain ⟨key, text⟩ := row
      obtain ⟨value, hparsed, hcopy⟩ := hrows key text List.mem_cons_self
      obtain ⟨hkey, hrest⟩ := List.nodup_cons.mp hnodup
      obtain ⟨o, mtime, asked, hset, hmember⟩ := setMetaKey_eq_ok clock hshape hcopy key
      have hstep : outcome (trySuper fun base => setMetaKey clock base key value) s =
          (.ok (), s.super fun base =>
            { base with metaData := .object o, mtime := mtime, asked := asked }) := by
        rw [trySuper, outcome_bind_ok (outcome_get s), hset]
        rfl
      obtain ⟨metaData, mtime', asked', hfetch, hshape', hmember'⟩ :=
        ih (fun key text hmem => hrows key text (List.mem_cons_of_mem _ hmem)) hrest
          (s := s.super fun base =>
            { base with metaData := .object o, mtime := mtime, asked := asked })
          (.inr ⟨o, rfl⟩)
      refine ⟨metaData, mtime', asked', ?_, hshape', fun key' => ?_⟩
      · rw [fetchMeta, hparsed, outcome_bind_ok (outcome_lift _ s), outcome_bind_ok hstep, hfetch]
        rfl
      · rw [hmember' key', List.map_cons, Assoc.lookup_cons_eq]
        have hcache : (s.super fun base => { base with
            metaData := .object o, mtime := mtime, asked := asked }).impl.metaData = .object o :=
          rfl
        rw [hcache, hmember key']
        by_cases heq : key' = key
        · subst heq
          rw [if_neg hkey, if_pos rfl, if_pos List.mem_cons_self, if_pos rfl, Option.bind_some,
            hparsed]
          rfl
        · rw [if_neg heq, if_neg heq]
          simp only [List.mem_cons, heq, false_or]

theorem settles_getMeta (h : Coherent env s) :
    Settles (getMeta .sound clock env) s
      (ReadsRows env [] s fun j => ∀ key, j.member key = rowValue env s key) := by
  cases hloaded : s.impl.metaLoaded with
  | true =>
      refine ⟨.ok s.impl.metaData, s, fun n => ?_, ⟨_, rfl, fun key => ?_⟩, rfl, rfl, h⟩
      · rw [getMeta, outcome_bind_ok (outcome_get s), hloaded]
        rfl
      · exact h.loaded hloaded key List.not_mem_nil
  | false =>
      obtain ⟨metaData, mtime, asked, hfetch, hshape, hmember⟩ := outcome_fetchMeta
        clock (s := { s with queries := s.queries + 1 }) h.readable h.nodup h.shape
      -- a key of the cache that is not in the rows would survive the loading
      have hvalue : ∀ key, metaData.member key = rowValue env s key := by
        intro key
        rw [hmember key]
        by_cases hkey : key ∈ (s.tables.metaOf s.impl.name).map Prod.fst
        · rw [if_pos hkey]
          rfl
        · rw [if_neg hkey]
          have hnone : s.impl.metaData.hasKey key = false := by
            rw [← Bool.not_eq_true]
            intro hcached
            rcases h.stored key hcached with hrow | hpending
            · exact hkey hrow
            · cases hpending
          rw [rowValue_eq_none hkey]
          exact Option.not_isSome_iff_eq_none.mp (Bool.eq_false_iff.mp hnone)
      have hkeys : ∀ key, metaData.hasKey key = true →
          key ∈ (s.tables.metaOf s.impl.name).map Prod.fst ∨ key ∈ [] := by
        intro key hkey
        left
        by_contra hrow
        rw [hasKey, hvalue key, rowValue_eq_none hrow] at hkey
        cases hkey
      have hload : outcome (loadMeta .sound clock env) s = (.ok (), { s with
          queries := s.queries + 1
          impl := { s.impl with metaData := metaData, asked := asked,
                                metaLoaded := true } }) := by
        rw [loadMeta, outcome_bind_ok (outcome_get s), outcome_bind_ok (outcome_query _),
          outcome_bind_ok hfetch]
        rfl
      have hread : Settles (fun n => do
          forever (loadMeta .sound clock env) n
          return (← get).impl.metaData) s
          (ReadsRows env [] s fun j => ∀ key, j.member key = rowValue env s key) :=
        Settles.bind (settles_forever hload (settles_of_outcome
          ⟨⟨_, rfl, hvalue⟩, rfl, rfl, h.messages, h.children, h.nodup, h.readable, hshape, hkeys,
            fun _ key _ => hvalue key⟩))
      refine hread.congr fun n => ?_
      rw [getMeta, outcome_bind_ok (outcome_get s), hloaded]
      rfl

end Reads

section Writes

/-- A call that ends leaves the caches coherent. -/
def Kept {α : Type} (env : Env D) (pending : List String) (r : Except Failure α)
    (s' : Session D) : Prop :=
  r = .error .diverges ∨ CoherentUpTo env pending s'

variable (clock) in
/-- One more message in the cache and in the table. -/
theorem settles_storeMessage (h : CoherentUpTo env pending s) (message : String) :
    Settles (fun n => do
      super fun base => base.addMessage clock message
      forever (storeMessage .sound message) n) s (Kept env pending) := by
  refine settles_bind (outcome_super _) (settles_forever rfl (.inr ?_))
  refine ⟨fun hloaded => ?_, h.children, h.nodup, h.readable, h.shape, h.stored, h.loaded⟩
  have hrows : ∀ name, ((s.tables.insertMessage ⟨name, message⟩).messagesOf name) =
      s.tables.messagesOf name ++ [message] := by
    intro name
    simp [Tables.insertMessage, Tables.messagesOf]
  exact (congrArg (· ++ [message]) (h.messages hloaded)).trans (hrows s.impl.name).symm

theorem settles_addMessage (h : CoherentUpTo env pending s) (message : String) :
    Settles (addMessage .sound clock message) s (Kept env pending) := by
  cases hloaded : s.impl.messagesLoaded with
  | false =>
      refine (settles_storeMessage clock h message).congr fun n => ?_
      rw [addMessage, outcome_bind_ok (outcome_get s), hloaded]
      rfl
  | true =>
      have hread : Settles (fun n => do
          let _ ← messages .sound clock n
          super fun base => base.addMessage clock message
          forever (storeMessage .sound message) n) s (Kept env pending) := by
        refine Settles.bind ((settles_messages clock h).mono fun r s' hs' => ?_)
        obtain ⟨⟨a, rfl, -⟩, -, -, hs'⟩ := hs'
        exact settles_storeMessage clock hs' message
      refine hread.congr fun n => ?_
      rw [addMessage, outcome_bind_ok (outcome_get s), hloaded]
      rfl

variable (clock) in
/-- One more child in the cache and in the table; a child without a uri is not stored, and
the loop does not end. -/
theorem settles_storeChild (h : CoherentUpTo env pending s) (childUri : String) :
    Settles (fun n => do
      super fun base => base.addChild clock childUri
      forever (storeChild .sound childUri) n) s (Kept env pending) := by
  refine settles_bind (outcome_super _) ?_
  cases hparse : Uri.parse childUri.toList with
  | error e =>
      have hbody : ∀ s : Session D, outcome (storeChild .sound childUri) s = (.error e, s) := by
        intro s
        rw [storeChild, hparse, outcome_bind_error (outcome_lift _ s)]
      have hlate : ∀ n (s : Session D),
          outcome (forever (storeChild .sound childUri) n) s = (.error .diverges, s) := by
        intro n
        induction n with
        | zero => exact fun _ => rfl
        | succ n ih =>
            intro s
            rw [forever, outcome_retry_succ, hbody s]
            dsimp only
            rw [if_pos (raised_parse _ e hparse)]
            exact ih s
      exact ⟨_, _, fun n => hlate (n + 1) _, .inl rfl⟩
  | ok uri =>
      have hbody : ∀ s : Session D, outcome (storeChild .sound childUri) s = outcome (do
          let s ← get
          statement .sound fun t =>
            .ok (t.insertChild ⟨s.impl.name, childUri, String.ofList uri.leaf⟩)
          touchRow .sound) s := by
        intro s
        rw [storeChild, hparse, outcome_bind_ok (outcome_lift _ s)]
      refine settles_forever ((hbody _).trans rfl) (.inr ?_)
      refine ⟨h.messages, fun hloaded => ?_, h.nodup, h.readable, h.shape, h.stored, h.loaded⟩
      have hrows : ∀ name childId,
          ((s.tables.insertChild ⟨name, childUri, childId⟩).childrenOf name) =
            s.tables.childrenOf name ++ [childUri] := by
        intro name childId
        simp [Tables.insertChild, Tables.childrenOf]
      exact (congrArg (· ++ [childUri]) (h.children hloaded)).trans (hrows s.impl.name _).symm

theorem settles_addChild (h : CoherentUpTo env pending s) (childUri : String) :
    Settles (addChild .sound clock childUri) s (Kept env pending) := by
  cases hloaded : s.impl.childrenLoaded with
  | true =>
      refine (settles_storeChild clock h childUri).congr fun n => ?_
      rw [addChild, outcome_bind_ok (outcome_get s), hloaded]
      rfl
  | false =>
      have hread : Settles (fun n => do
          let _ ← children .sound clock n
          super fun base => base.addChild clock childUri
          forever (storeChild .sound childUri) n) s (Kept env pending) := by
        refine Settles.bind ((settles_children clock h).mono fun r s' hs' => ?_)
        obtain ⟨⟨a, rfl, -⟩, -, -, hs'⟩ := hs'
        exact settles_storeChild clock hs' childUri
      refine hread.congr fun n => ?_
      rw [addChild, outcome_bind_ok (outcome_get s), hloaded]
      rfl

/-- The value comes back from its text, and as it is if the cache is loaded. -/
def Storable (env : Env D) (loaded : Bool) (value : Json D) : Prop :=
  ∃ value', resent env value = .ok value' ∧ value'.copy = .ok value' ∧
    (loaded = true → value' = value)

theorem metaOf_replaceMeta (t : Tables) (name key : String) (text : Text) :
    (t.replaceMeta ⟨name, key, text⟩).metaOf name =
      ((t.metaOf name).filter fun row => row.1 ≠ key) ++ [(key, text)] := by
  have hrows : ∀ rows : List MetaRow,
      ((rows.filter fun row => ¬ (row.statusName = name ∧ row.name = key)).filter
        fun row => row.statusName = name).map (fun row => (row.name, row.value)) =
      ((rows.filter fun row => row.statusName = name).map
        fun row => (row.name, row.value)).filter fun row => row.1 ≠ key := by
    intro rows
    rw [List.filter_map, List.filter_filter, List.filter_filter]
    congr 1
    apply List.filter_congr
    intro row _
    by_cases hname : row.statusName = name
    · simp [hname]
    · simp [hname]
  rw [Tables.replaceMeta, Tables.metaOf, List.filter_append, List.map_append, hrows]
  simp [Tables.metaOf]

theorem lookup_filter_append (rows : List (String × Text)) (key key' : String) (text : Text) :
    ((rows.filter fun row => row.1 ≠ key) ++ [(key, text)]).lookup key' =
      if key' = key then some text else rows.lookup key' := by
  induction rows with
  | nil =>
      rw [List.filter_nil, List.nil_append, Assoc.lookup_cons_eq]
  | cons row rest ih =>
      obtain ⟨k, v⟩ := row
      by_cases hk : k = key
      · subst hk
        rw [List.filter_cons_of_neg (by simp), ih, Assoc.lookup_cons_eq]
        split
        · rfl
        · rfl
      · rw [List.filter_cons_of_pos (by simpa using hk), List.cons_append, Assoc.lookup_cons_eq,
          Assoc.lookup_cons_eq, ih]
        by_cases hkey : key' = k
        · rw [if_pos hkey, if_neg (hkey ▸ hk), if_pos hkey]
        · rw [if_neg hkey, if_neg hkey]

/-- The key is stored in the cache and in the table. -/
theorem CoherentUpTo.store {s' : Session D} {key : String} {value value' : Json D} {text : Text}
    {o : List (String × Json D)} (h : CoherentUpTo env (key :: pending) s)
    (hparsed : parsed env text = .ok value') (hcopy : value'.copy = .ok value')
    (hsame : s.impl.metaLoaded = true → value' = value)
    (hmember : ∀ key', (object o).member key' =
      if key' = key then some value else s.impl.metaData.member key')
    (hs : Same { s with
      tables := s.tables.replaceMeta ⟨s.impl.name, key, text⟩
      impl := { s.impl with metaData := .object o } } s') :
    CoherentUpTo env pending s' := by
  refine CoherentUpTo.congr ?_ hs
  have hrows := metaOf_replaceMeta s.tables s.impl.name key text
  have hvalue : ∀ key', rowValue env { s with
      tables := s.tables.replaceMeta ⟨s.impl.name, key, text⟩
      impl := { s.impl with metaData := .object o } } key' =
        if key' = key then some value' else rowValue env s key' := by
    intro key'
    rw [rowValue]
    dsimp only
    rw [hrows, lookup_filter_append]
    split
    · rw [Option.bind_some, hparsed]
      rfl
    · rfl
  refine ⟨h.messages, h.children, ?_, ?_, .inr ⟨o, rfl⟩, ?_, ?_⟩
  · dsimp only
    rw [hrows, List.map_append, List.nodup_append]
    refine ⟨(List.Sublist.map _ List.filter_sublist).nodup h.nodup, by simp, ?_⟩
    intro a ha b hb hab
    simp only [List.map_cons, List.map_nil, List.mem_singleton] at hb
    subst hb hab
    simp at ha
  · intro key' text' hmem
    dsimp only at hmem
    rw [hrows, List.mem_append] at hmem
    rcases hmem with hmem | hmem
    · exact h.readable key' text' (List.mem_filter.mp hmem).1
    · cases List.mem_singleton.mp hmem
      exact ⟨value', hparsed, hcopy⟩
  · intro key' hkey'
    dsimp only at hkey' ⊢
    rw [hasKey, hmember] at hkey'
    rw [hrows, List.map_append, List.mem_append]
    by_cases heq : key' = key
    · exact .inl (.inr (by simp [heq]))
    · rw [if_neg heq] at hkey'
      rcases h.stored key' hkey' with hrow | hpending
      · left
        left
        obtain ⟨row, hmem, rfl⟩ := List.mem_map.mp hrow
        exact List.mem_map_of_mem (List.mem_filter.mpr ⟨hmem, by simpa using heq⟩)
      · exact .inr ((List.mem_cons.mp hpending).resolve_left heq)
  · intro hloaded key' hkey'
    dsimp only at hloaded ⊢
    rw [hvalue, hmember]
    by_cases heq : key' = key
    · rw [if_pos heq, if_pos heq, hsame hloaded]
    · rw [if_neg heq, if_neg heq]
      exact h.loaded hloaded key' fun hmem => hkey' ((List.mem_cons.mp hmem).resolve_left heq)

theorem settles_setMeta {key : String} {value : Json D}
    (h : CoherentUpTo env (key :: pending) s) (hvalue : Storable env s.impl.metaLoaded value) :
    Settles (setMeta .sound clock env key value) s fun r s' =>
      r = .error .diverges ∨ r = .ok () ∧ CoherentUpTo env pending s' ∧
        s'.impl.metaLoaded = s.impl.metaLoaded := by
  obtain ⟨value', hresent, hcopy', hsame⟩ := hvalue
  obtain ⟨text, htext, hparsed⟩ := bind_eq_ok.mp hresent
  rcases copy_cases value with ⟨-, hcopy⟩ | ⟨-, hcopy⟩
  · obtain ⟨o, mtime, asked, hset, hmember⟩ := setMetaKey_eq_ok clock h.shape hcopy key
    have hbase : outcome (trySuper fun base => setMetaKey clock base key value) s =
        (.ok (), s.super fun base =>
          { base with metaData := .object o, mtime := mtime, asked := asked }) := by
      rw [trySuper, outcome_bind_ok (outcome_get s), hset]
      rfl
    have hstore : ∀ s : Session D, outcome (storeMeta .sound env key value) s = outcome (do
        let s ← get
        statement .sound fun t => .ok (t.replaceMeta ⟨s.impl.name, key, text⟩)
        touchRow .sound) s := by
      intro s
      rw [storeMeta, htext, outcome_bind_ok (outcome_lift _ s)]
    refine settles_bind hbase (settles_forever ((hstore _).trans rfl) (.inr ⟨rfl, ?_, rfl⟩))
    exact h.store hparsed hcopy' hsame hmember
      ⟨rfl, rfl, rfl, rfl, rfl, rfl, rfl, rfl, rfl, rfl⟩
  · have hbase : outcome (trySuper fun base => setMetaKey clock base key value) s =
        (.error .diverges, s) := by
      rw [trySuper, outcome_bind_ok (outcome_get s)]
      rcases h.shape with hundef | ⟨o, ho⟩
      · rw [setMetaKey, hundef, hcopy]
        rfl
      · rw [setMetaKey, ho, hcopy]
        rfl
    exact ⟨_, _, fun n => outcome_bind_error hbase, .inl rfl⟩

/-- The loop over the members; the keys that are left are pending. -/
theorem settles_setMembers {members : List (String × Json D)}
    (h : CoherentUpTo env (members.map Prod.fst) s)
    (hvalues : ∀ m ∈ members, Storable env s.impl.metaLoaded m.2) :
    Settles (setMembers .sound clock env members) s (Kept env []) := by
  induction members generalizing s with
  | nil => exact ⟨_, _, fun _ => rfl, .inr h⟩
  | cons m rest ih =>
      obtain ⟨key, value⟩ := m
      refine Settles.bind ((settles_setMeta h (hvalues _ List.mem_cons_self)).mono ?_)
      rintro r s' (rfl | ⟨rfl, hs', hloaded⟩)
      · exact .inl rfl
      · refine ih hs' fun m hm => ?_
        rw [hloaded]
        exact hvalues m (List.mem_cons_of_mem _ hm)

/-- The keys of the cache are keys of the new object, so that none is left without a row. -/
theorem settles_replaceMeta {metaData : Json D} (h : Coherent env s)
    (hkeys : ∀ key, s.impl.metaData.hasKey key = true → metaData.hasKey key = true)
    (hvalues : ∀ members, metaData.asObject = .ok members →
      ∀ m ∈ members, Storable env s.impl.metaLoaded m.2) :
    Settles (replaceMeta .sound clock env metaData) s (Kept env []) := by
  have hrows : ∀ name, (s.tables.deleteMeta name).metaOf name = [] := by
    intro name
    simp [Tables.deleteMeta, Tables.metaOf]
  have hclear : ∀ (pending : List String) (s' : Session D),
      (∀ key, s.impl.metaData.hasKey key = true → key ∈ pending) →
      Same { s with tables := s.tables.deleteMeta s.impl.name } s' →
      CoherentUpTo env pending s' := by
    intro pending s' hpending hsame
    refine CoherentUpTo.congr ?_ hsame
    refine ⟨h.messages, h.children, ?_, ?_, h.shape, fun key hkey => .inr (hpending key hkey), ?_⟩
    · dsimp only
      rw [hrows]
      exact List.nodup_nil
    · dsimp only
      rw [hrows]
      exact fun key text hmem => absurd hmem List.not_mem_nil
    · intro _ key hkey
      rw [rowValue_eq_none (by dsimp only; rw [hrows]; exact List.not_mem_nil)]
      exact Option.not_isSome_iff_eq_none.mp fun hcached => hkey (hpending key hcached)
  refine Settles.bind (settles_forever rfl ?_)
  cases hmembers : metaData.asObject with
  | error e =>
      refine ⟨_, _, fun n => outcome_bind_error (outcome_lift _ _), .inr (hclear [] _ ?_
        ⟨rfl, rfl, rfl, rfl, rfl, rfl, rfl, rfl, rfl, rfl⟩)⟩
      intro key hkey
      cases metaData with
      | object o => cases hmembers
      | _ => exact absurd (hkeys key hkey) Bool.false_ne_true
  | ok members =>
      refine settles_bind (outcome_lift _ _) (settles_setMembers (hclear _ _ ?_
        ⟨rfl, rfl, rfl, rfl, rfl, rfl, rfl, rfl, rfl, rfl⟩) (hvalues members hmembers))
      intro key hkey
      cases metaData with
      | object o =>
          cases hmembers
          have hmem := hkeys key hkey
          rw [hasKey, member, Assoc.isSome_lookup, decide_eq_true_iff] at hmem
          exact hmem
      | _ => cases hmembers

end Writes

section Loads

variable (clock) in
/-- The columns of a row are not the caches. -/
theorem assignRow_same (base : StatusImpl D) (row : StatusRow) :
    (assignRow clock base row).messages = base.messages ∧
      (assignRow clock base row).children = base.children ∧
      (assignRow clock base row).metaData = base.metaData ∧
      (assignRow clock base row).name = row.name := by
  rw [assignRow]
  obtain ⟨mtime, asked, hstate⟩ := StatusImpl.setState_eq clock
    { StatusImpl.setParentUri clock (StatusImpl.setResourceUri clock
      { StatusImpl.setProgress clock (StatusImpl.setComponent clock (StatusImpl.setOperation clock
        (StatusImpl.setName clock base row.name) row.operation) row.component) row.progress with
          code := row.code } row.resourceUri) row.parentUri with
      ctime := row.ctime.toInt32.toInt64
      ytime := row.ytime.toInt32.toInt64 } row.state
  dsimp only
  rw [hstate]
  exact ⟨rfl, rfl, rfl, rfl⟩

theorem settles_reallyLoad (h : CoherentUpTo env pending s) :
    Settles (reallyLoad .sound clock) s fun _ s' => CoherentUpTo env pending s' := by
  refine settles_bind (outcome_get s) ?_
  cases hrow : s.tables.statusOf s.impl.name with
  | none =>
      refine Settles.bind (settles_forever
        (?_ : outcome _ s = (.ok false, { s with queries := s.queries + 1 }))
        (settles_of_outcome ?_))
      · rw [outcome_bind_ok (outcome_query _), hrow]
        rfl
      · exact h.congr ⟨rfl, rfl, rfl, rfl, rfl, rfl, rfl, rfl, rfl, rfl⟩
  | some row =>
      obtain ⟨hmessages, hchildren, hmeta, hname⟩ :=
        assignRow_same clock s.impl.toStatusImpl row
      have hfound : row.name = s.impl.name := by simpa using List.find?_some hrow
      refine Settles.bind (settles_forever
        (?_ : outcome _ s = (.ok true, { s with
          queries := s.queries + 1
          impl := { s.impl with
            toStatusImpl := assignRow clock s.impl.toStatusImpl row
            loaded := true
            shouldLoad := true } }))
        (settles_of_outcome ?_))
      · rw [outcome_bind_ok (outcome_query _), hrow]
        rfl
      · exact h.congr ⟨rfl, rfl, rfl, hname.trans hfound, hmessages, hchildren, hmeta, rfl, rfl,
          rfl⟩

theorem settles_setState (h : CoherentUpTo env pending s) (st : State) :
    Settles (fun _ => super fun base => (base.setState clock st).2) s fun r s' =>
      r = .ok () ∧ CoherentUpTo env pending s' := by
  refine settles_of_outcome ⟨rfl, h.congr ?_⟩
  obtain ⟨mtime, asked, hstate⟩ := StatusImpl.setState_eq clock s.impl.toStatusImpl st
  rw [outcome_super, Session.super, hstate]
  exact ⟨rfl, rfl, rfl, rfl, rfl, rfl, rfl, rfl, rfl, rfl⟩

/-- The end of `sync`: the meta data are to be loaded again. -/
theorem settles_syncMeta (h : Coherent env s) :
    Settles (fun n => do
      if !(← getMeta .sound clock env n).empty then
        trySuper fun base => base.setMeta clock .undef
      modify fun s => { s with impl := { s.impl with metaLoaded := false } }) s (Kept env []) := by
  refine Settles.bind ((settles_getMeta h).mono fun r s' hs' => ?_)
  obtain ⟨⟨j, rfl, -⟩, -, -, hs'⟩ := hs'
  dsimp only
  cases j.empty with
  | true =>
      exact ⟨_, _, fun _ => rfl, .inr ⟨hs'.messages, hs'.children, hs'.nodup, hs'.readable,
        hs'.shape, hs'.stored, nofun⟩⟩
  | false =>
      exact ⟨_, _, fun _ => rfl, .inr ⟨hs'.messages, hs'.children, hs'.nodup, hs'.readable,
        .inl rfl, nofun, nofun⟩⟩

theorem settles_syncChildren (h : Coherent env s) :
    Settles (fun n => do
      if !(← children .sound clock n).isEmpty then
        super fun base => { base with children := [] }
      modify fun s => { s with impl := { s.impl with childrenLoaded := false } }
      if !(← getMeta .sound clock env n).empty then
        trySuper fun base => base.setMeta clock .undef
      modify fun s => { s with impl := { s.impl with metaLoaded := false } }) s (Kept env []) := by
  refine Settles.bind ((settles_children clock h).mono fun r s' hs' => ?_)
  obtain ⟨⟨rows, rfl, -⟩, -, -, hs'⟩ := hs'
  dsimp only
  have hforgot : ∀ children, Coherent env { s' with
      impl := { s'.impl with children := children, childrenLoaded := false } } := fun children =>
    ⟨hs'.messages, nofun, hs'.nodup, hs'.readable, hs'.shape, hs'.stored, hs'.loaded⟩
  cases rows.isEmpty with
  | true => exact settles_bind (outcome_modify _ _) (settles_syncMeta (hforgot s'.impl.children))
  | false =>
      exact settles_bind (outcome_super _)
        (settles_bind (outcome_modify _ _) (settles_syncMeta (hforgot [])))

theorem settles_sync (h : Coherent env s) :
    Settles (sync .sound clock env) s (Kept env []) := by
  refine Settles.bind ((settles_setState h .unknown).mono ?_)
  rintro r s₁ ⟨rfl, hs₁⟩
  refine Settles.bind ((settles_reallyLoad hs₁).mono fun r s₂ hs₂ => ?_)
  cases r with
  | error e => exact .inr hs₂
  | ok u =>
      refine Settles.bind ((settles_messages clock hs₂).mono fun r s' hs' => ?_)
      obtain ⟨⟨rows, rfl, -⟩, -, -, hs'⟩ := hs'
      dsimp only
      have hforgot : ∀ messages, Coherent env { s' with
          impl := { s'.impl with messages := messages, messagesLoaded := false } } :=
        fun messages =>
          ⟨nofun, hs'.children, hs'.nodup, hs'.readable, hs'.shape, hs'.stored, hs'.loaded⟩
      cases rows.isEmpty with
      | true =>
          exact settles_bind (outcome_modify _ _)
            (settles_syncChildren (hforgot s'.impl.messages))
      | false =>
          exact settles_bind (outcome_super _)
            (settles_bind (outcome_modify _ _) (settles_syncChildren (hforgot [])))

variable (clock) in
/-- The end of `serialize`: the caches are filled and written. -/
theorem settles_serializeCaches (h : Coherent env s) :
    Settles (fun n => do
      let _ ← messages .sound clock n
      let _ ← children .sound clock n
      let _ ← getMeta .sound clock env n
      let s ← get
      match ← query .sound fun t => t.statusOf s.impl.name with
      | none => throw .undefined
      | some row => liftM (Private.serialize
          { s.impl.toPrivate with concurrency := row.concurrency } env)) s (Kept env []) := by
  refine Settles.bind ((settles_messages clock h).mono fun r s₁ hs₁ => ?_)
  obtain ⟨⟨_, rfl, -⟩, -, -, hs₁⟩ := hs₁
  refine Settles.bind ((settles_children clock hs₁).mono fun r s₂ hs₂ => ?_)
  obtain ⟨⟨_, rfl, -⟩, -, -, hs₂⟩ := hs₂
  refine Settles.bind ((settles_getMeta hs₂).mono fun r s₃ hs₃ => ?_)
  obtain ⟨⟨_, rfl, -⟩, -, -, hs₃⟩ := hs₃
  refine settles_bind (outcome_get s₃) (settles_bind (outcome_query _) ?_)
  have hquery : Coherent env { s₃ with queries := s₃.queries + 1 } :=
    hs₃.congr ⟨rfl, rfl, rfl, rfl, rfl, rfl, rfl, rfl, rfl, rfl⟩
  cases s₃.tables.statusOf s₃.impl.name with
  | none => exact settles_of_outcome (.inr hquery)
  | some row => exact settles_of_outcome (.inr hquery)

theorem settles_serialize (h : Coherent env s) :
    Settles (serialize .sound clock env) s (Kept env []) := by
  cases hloaded : s.impl.loaded with
  | true =>
      refine (settles_serializeCaches clock h).congr fun n => ?_
      rw [serialize, outcome_bind_ok (outcome_get s), hloaded]
      rfl
  | false =>
      have hload : Settles (fun n => do
          reallyLoad .sound clock n
          let _ ← messages .sound clock n
          let _ ← children .sound clock n
          let _ ← getMeta .sound clock env n
          let s ← get
          match ← query .sound fun t => t.statusOf s.impl.name with
          | none => throw .undefined
          | some row => liftM (Private.serialize
              { s.impl.toPrivate with concurrency := row.concurrency } env)) s (Kept env []) := by
        refine Settles.bind ((settles_reallyLoad h).mono fun r s₁ hs₁ => ?_)
        cases r with
        | error e => exact .inr hs₁
        | ok u => exact settles_serializeCaches clock hs₁
      refine hload.congr fun n => ?_
      rw [serialize, outcome_bind_ok (outcome_get s), hloaded]
      rfl

end Loads

end Coherent

section Runs

/-- A call of a method of one handle. -/
inductive Call (D : Type) where
  | addMessage (message : String)
  | addChild (childUri : String)
  | setMeta (key : String) (value : Json D)
  | replaceMeta (metaData : Json D)
  | messages
  | children
  | getMeta
  | sync
  | serialize

variable (clock : ℕ → Int64) (env : Env D)

/-- The call, without what it returns. -/
def Call.run : Call D → ℕ → SqlM D Unit
  | .addMessage message, n => SqlStatus.addMessage .sound clock message n
  | .addChild childUri, n => SqlStatus.addChild .sound clock childUri n
  | .setMeta key value, n => SqlStatus.setMeta .sound clock env key value n
  | .replaceMeta metaData, n => SqlStatus.replaceMeta .sound clock env metaData n
  | .messages, n => do let _ ← SqlStatus.messages .sound clock n
  | .children, n => do let _ ← SqlStatus.children .sound clock n
  | .getMeta, n => do let _ ← SqlStatus.getMeta .sound clock env n
  | .sync, n => SqlStatus.sync .sound clock env n
  | .serialize, n => do let _ ← SqlStatus.serialize .sound clock env n

/-- The call keeps the caches right: every value comes back from its text, and a new object
has the keys that the cache has. -/
def Call.Safe : Call D → Session D → Prop
  | .setMeta _ value, s => Storable env s.impl.metaLoaded value
  | .replaceMeta metaData, s =>
      (∀ key, s.impl.metaData.hasKey key = true → metaData.hasKey key = true) ∧
        ∀ members, metaData.asObject = .ok members →
          ∀ m ∈ members, Storable env s.impl.metaLoaded m.2
  | _, _ => True

/-- One call that ends, among those that are allowed. -/
def Step (allowed : Call D → Session D → Prop) (s s' : Session D) : Prop :=
  ∃ c r, allowed c s ∧ Halts .diverges (c.run clock env) s r s'

/-- A handle that has loaded nothing yet, on rows that can be read. -/
structure Fresh (s : Session D) : Prop where
  messages : s.impl.messagesLoaded = false
  children : s.impl.childrenLoaded = false
  metaLoaded : s.impl.metaLoaded = false
  metaData : s.impl.metaData = .undef
  nodup : ((s.tables.metaOf s.impl.name).map Prod.fst).Nodup
  readable : ∀ key text, (key, text) ∈ s.tables.metaOf s.impl.name →
    ∃ value, parsed env text = .ok value ∧ value.copy = .ok value

/-- The calls that read return the rows of the status. -/
structure Mirrors (s : Session D) : Prop where
  messages : ∃ s', Halts .diverges (messages .sound clock) s
    (.ok (s.tables.messagesOf s.impl.name)) s'
  children : ∃ s', Halts .diverges (children .sound clock) s
    (.ok (s.tables.childrenOf s.impl.name)) s'
  metaData : ∃ j s', Halts .diverges (getMeta .sound clock env) s (.ok j) s' ∧
    ∀ key, j.member key = rowValue env s key

variable {clock env} {s s' : Session D}

theorem Fresh.coherent (h : Fresh env s) : Coherent env s where
  messages hloaded := absurd hloaded (by rw [h.messages]; exact Bool.false_ne_true)
  children hloaded := absurd hloaded (by rw [h.children]; exact Bool.false_ne_true)
  nodup := h.nodup
  readable := h.readable
  shape := .inl h.metaData
  stored key hkey := absurd hkey (by rw [h.metaData]; exact Bool.false_ne_true)
  loaded hloaded := absurd hloaded (by rw [h.metaLoaded]; exact Bool.false_ne_true)

/-- A call that reads returns a value. -/
theorem halts_of_reads {α : Type} {p : ℕ → SqlM D α} {P : α → Prop} {pending : List String}
    (h : Settles p s (ReadsRows env pending s P)) :
    ∃ a s', Halts .diverges p s (.ok a) s' ∧ P a := by
  obtain ⟨r, s', hend, ⟨a, rfl, ha⟩, -⟩ := h.halts fun s' hs' => by
    obtain ⟨a, ha, -⟩ := hs'.result
    cases ha
  exact ⟨a, s', hend, ha⟩

theorem Mirrors.of_coherent (h : Coherent env s) : Mirrors clock env s := by
  refine ⟨?_, ?_, ?_⟩
  · obtain ⟨rows, s', hend, rfl⟩ := halts_of_reads (settles_messages clock h)
    exact ⟨s', hend⟩
  · obtain ⟨rows, s', hend, rfl⟩ := halts_of_reads (settles_children clock h)
    exact ⟨s', hend⟩
  · exact halts_of_reads (settles_getMeta h)

/-- A call of which only the state is kept. -/
theorem Settles.discard {α : Type} {p : ℕ → SqlM D α} {Q : Session D → Prop}
    (h : Settles p s fun r s' => r = .error .diverges ∨ Q s') :
    Settles (fun n => do let _ ← p n) s fun r s' => r = .error .diverges ∨ Q s' := by
  refine Settles.bind (h.mono fun r s' hs' => ?_)
  cases r with
  | error e => exact hs'.imp_left fun he => congrArg _ (Except.error.inj he)
  | ok a => exact ⟨_, _, fun _ => rfl, hs'.imp_left nofun⟩

theorem ReadsRows.kept {α : Type} {P : α → Prop} {pending : List String} {r : Except Failure α}
    (h : ReadsRows env pending s P r s') : Kept env pending r s' :=
  .inr h.coherent

theorem Call.settles (h : Coherent env s) (c : Call D) (hsafe : c.Safe env s) :
    Settles (c.run clock env) s (Kept env []) := by
  cases c with
  | addMessage message => exact settles_addMessage h message
  | addChild childUri => exact settles_addChild h childUri
  | setMeta key value =>
      refine (settles_setMeta (h.weaken [key]) hsafe).mono ?_
      rintro r s' (rfl | ⟨rfl, hs', -⟩)
      · exact .inl rfl
      · exact .inr hs'
  | replaceMeta metaData => exact settles_replaceMeta h hsafe.1 hsafe.2
  | messages => exact ((settles_messages clock h).mono fun _ _ hs' => hs'.kept).discard
  | children => exact ((settles_children clock h).mono fun _ _ hs' => hs'.kept).discard
  | getMeta => exact ((settles_getMeta h).mono fun _ _ hs' => hs'.kept).discard
  | sync => exact settles_sync h
  | serialize => exact (settles_serialize h).discard

/-- One call leaves the caches coherent. -/
theorem Step.coherent (h : Coherent env s) (hstep : Step clock env (Call.Safe env) s s') :
    Coherent env s' := by
  obtain ⟨c, r, hsafe, hend⟩ := hstep
  rcases (Call.settles h c hsafe).of_halts hend with hr | hs'
  · exact absurd hr hend.1
  · exact hs'

/-- In every sequence of calls on one handle in which every value comes back from its text
and no new object lacks a key of the cache, the calls that read return the rows. -/
theorem mirrors_of_run (hfresh : Fresh env s)
    (hrun : Relation.ReflTransGen (Step clock env (Call.Safe env)) s s') :
    Mirrors clock env s' := by
  refine Mirrors.of_coherent ?_
  induction hrun with
  | refl => exact hfresh.coherent
  | tail _ hstep ih => exact hstep.coherent ih

section Samples

/-- The state after a call whose loops return in their first round. -/
def after (c : Call ℤ) (s : Session ℤ) : Session ℤ :=
  (outcome (c.run (fun _ => 0) wholeNumbers 1) s).2

theorem step_after (allowed : Call ℤ → Session ℤ → Prop) {c : Call ℤ} {s : Session ℤ}
    (hallowed : allowed c s)
    (h : ∀ n, outcome (c.run (fun _ => 0) wholeNumbers (n + 1)) s = (.ok (), after c s)) :
    Step (fun _ => 0) wholeNumbers allowed s (after c s) := by
  refine ⟨c, .ok (), hallowed, nofun, 1, fun n hn => ?_⟩
  obtain ⟨n, rfl⟩ := Nat.exists_eq_add_of_le' hn
  exact h n

theorem fresh_newSession : Fresh wholeNumbers newSession where
  messages := rfl
  children := rfl
  metaLoaded := rfl
  metaData := rfl
  nodup := List.nodup_nil
  readable _ _ hmem := absurd hmem List.not_mem_nil

/-- A meta value and a message are stored. -/
theorem mirrors_twoCalls : Fresh wholeNumbers newSession ∧
    Mirrors (fun _ => 0) wholeNumbers
      (after (.addMessage "text") (after (.setMeta "a" (.string "x")) newSession)) := by
  have hstorable : Storable wholeNumbers false (.string "x") :=
    ⟨.string "x", rfl, rfl, fun _ => rfl⟩
  have hfirst := step_after (Call.Safe wholeNumbers) (s := newSession)
    (c := .setMeta "a" (.string "x")) hstorable fun n => rfl
  have hsecond := step_after (Call.Safe wholeNumbers)
    (s := after (.setMeta "a" (.string "x")) newSession) (c := .addMessage "text") trivial
    fun n => rfl
  exact ⟨fresh_newSession, mirrors_of_run fresh_newSession (.tail (.single hfirst) hsecond)⟩

/-- The handle after a key is stored and all meta data are replaced by an empty object. -/
def emptied : Session ℤ :=
  after (.replaceMeta (.object [])) (after (.setMeta "a" (.string "x")) newSession)

/-- `meta()` returns a key that has no row. -/
theorem not_mirrors :
    ¬ ∀ s s' : Session ℤ, Fresh wholeNumbers s →
      Relation.ReflTransGen (Step (fun _ => 0) wholeNumbers fun _ _ => True) s s' →
      Mirrors (fun _ => 0) wholeNumbers s' := by
  intro h
  have hfirst := step_after (fun _ _ => True) (s := newSession)
    (c := .setMeta "a" (.string "x")) trivial fun n => rfl
  have hsecond := step_after (fun _ _ => True)
    (s := after (.setMeta "a" (.string "x")) newSession) (c := .replaceMeta (.object [])) trivial
    fun n => rfl
  obtain ⟨j, s', hend, hmember⟩ :=
    (h newSession emptied fresh_newSession (.tail (.single hfirst) hsecond)).metaData
  have hstale : Halts .diverges (getMeta .sound (fun _ => 0) wholeNumbers) emptied
      (.ok emptied.impl.metaData)
      (outcome (getMeta .sound (fun _ => 0) wholeNumbers 1) emptied).2 := by
    refine ⟨nofun, 1, fun n hn => ?_⟩
    obtain ⟨n, rfl⟩ := Nat.exists_eq_add_of_le' hn
    rfl
  obtain ⟨hj, -⟩ := hend.unique hstale
  cases hj
  exact nomatch hmember "a"

end Samples

end Runs

end SqlStatus

end Gearbox
