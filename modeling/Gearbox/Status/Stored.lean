import Gearbox.Status.Tables

/-!
# What is stored when statements fail

`add_message` and `add_child` insert a row and then update `mtime`, in one loop that starts
again when either statement fails. The row is inserted once more in every round that
follows an `UPDATE` that failed, so that it is stored once if and only if the statement
after the first one that succeeds succeeds too (`stored_once_iff`).

The loop of `insert` cannot tell a database that is not available from a name that is
taken. With a name that is taken it does not end (`insert_ends_iff`).
-/

namespace Gearbox

namespace SqlStatus

open Json Refinement Status

variable {D : Type}

section Statements

variable {db : Server} {s : Session D}

theorem outcome_statement (f : Tables → Except Failure Tables) :
    outcome (statement db f) s =
      if db.writeFails s.writes then
        (.error sociError, { s with writes := s.writes + 1 })
      else
        match f s.tables with
        | .ok t => (.ok (), { s with tables := t, writes := s.writes + 1 })
        | .error e => (.error e, { s with writes := s.writes + 1 }) := rfl

theorem outcome_query {α : Type} (f : Tables → α) :
    outcome (query db f) s =
      if db.queryFails s.queries then
        (.error sociError, { s with queries := s.queries + 1 })
      else
        (.ok (f s.tables), { s with queries := s.queries + 1 }) := rfl

theorem outcome_super (f : StatusImpl D → StatusImpl D) :
    outcome (super f) s = (.ok (), s.super f) := rfl

variable {clock : ℕ → Int64}

/-- The messages that are fetched, with `mtime` as it was. -/
theorem foldl_addMessage (rows : List String) (base : StatusImpl D) (mtime : Int64) :
    { rows.foldl (fun base text => base.addMessage clock text) base with mtime := mtime } =
      { base with
        messages := base.messages ++ rows
        mtime := mtime
        asked := base.asked + rows.length } := by
  induction rows generalizing base with
  | nil => rw [List.append_nil]; rfl
  | cons text rest ih =>
      rw [List.foldl_cons, ih]
      simp only [StatusImpl.addMessage, StatusImpl.touch, List.append_assoc, List.cons_append,
        List.nil_append, List.length_cons]
      congr 1
      omega

theorem foldl_addChild (rows : List String) (base : StatusImpl D) (mtime : Int64) :
    { rows.foldl (fun base uri => base.addChild clock uri) base with mtime := mtime } =
      { base with
        children := base.children ++ rows
        mtime := mtime
        asked := base.asked + rows.length } := by
  induction rows generalizing base with
  | nil => rw [List.append_nil]; rfl
  | cons uri rest ih =>
      rw [List.foldl_cons, ih]
      simp only [StatusImpl.addChild, StatusImpl.touch, List.append_assoc, List.cons_append,
        List.nil_append, List.length_cons]
      congr 1
      omega

variable (db clock) in
/-- One round of the loop of `messages()`. -/
theorem outcome_loadMessages :
    outcome (loadMessages db clock) s =
      if db.queryFails s.queries then
        (.error sociError,
          { s with queries := s.queries + 1, impl := { s.impl with messages := [] } })
      else
        (.ok (), { s with
          queries := s.queries + 1
          impl := { s.impl with
            messages := s.tables.messagesOf s.impl.name
            asked := s.impl.asked + (s.tables.messagesOf s.impl.name).length
            messagesLoaded := true } }) := by
  rw [loadMessages, outcome_bind_ok (outcome_super _), outcome_bind_ok (outcome_get _),
    outcome_bind, outcome_query]
  cases hfails : db.queryFails s.queries with
  | true => simp only [Session.super, hfails, if_true]
  | false =>
      simp only [Session.super, hfails, Bool.false_eq_true, if_false]
      rw [outcome_bind_ok (outcome_super _), outcome_modify]
      simp only [Session.super, foldl_addMessage, List.nil_append]

variable (db clock) in
/-- One round of the loop of `children()`. -/
theorem outcome_loadChildren :
    outcome (loadChildren db clock) s =
      if db.queryFails s.queries then
        (.error sociError,
          { s with queries := s.queries + 1, impl := { s.impl with children := [] } })
      else
        (.ok (), { s with
          queries := s.queries + 1
          impl := { s.impl with
            children := s.tables.childrenOf s.impl.name
            asked := s.impl.asked + (s.tables.childrenOf s.impl.name).length
            childrenLoaded := true } }) := by
  rw [loadChildren, outcome_bind_ok (outcome_super _), outcome_bind_ok (outcome_get _),
    outcome_bind, outcome_query]
  cases hfails : db.queryFails s.queries with
  | true => simp only [Session.super, hfails, if_true]
  | false =>
      simp only [Session.super, hfails, Bool.false_eq_true, if_false]
      rw [outcome_bind_ok (outcome_super _), outcome_modify]
      simp only [Session.super, foldl_addChild, List.nil_append]

theorem outcome_children (h : s.impl.childrenLoaded = false) (n : ℕ) :
    outcome (children db clock n) s =
      match outcome (forever (loadChildren db clock) n) s with
      | (.ok _, s') => (.ok s'.impl.children, s')
      | (.error e, s') => (.error e, s') := by
  rw [children, outcome_bind_ok (outcome_get s), h]
  change outcome (forever (loadChildren db clock) n >>= fun _ => _) s = _
  rw [outcome_bind]
  cases outcome (forever (loadChildren db clock) n) s with
  | mk r s' =>
      cases r with
      | error e => rfl
      | ok u => rfl

theorem outcome_touchRow :
    outcome (touchRow db) s = outcome (statement db fun t =>
      .ok (t.updateMtime s.impl.name s.impl.mtime)) s := rfl

end Statements

section Insert

/-- The writing statement after the first one from `n` on that succeeds succeeds too. -/
def Server.Steady (db : Server) (n : ℕ) : Prop :=
  ∀ m, n ≤ m → (∀ k, n ≤ k → k < m → db.writeFails k = true) → db.writeFails m = false →
    db.writeFails (m + 1) = false

variable {R : Type} {db : Server} {impl : SqlStatusImpl D} {rows : Tables → List R} {row : R}
  {m : SqlM D Unit} {s s' : Session D}

theorem Server.Steady.succ {n : ℕ} (h : db.writeFails n = true) :
    db.Steady (n + 1) ↔ db.Steady n := by
  constructor
  · intro hsteady m hm hfails hok
    have hlt : n < m := by
      rcases Nat.eq_or_lt_of_le hm with rfl | hlt
      · rw [h] at hok
        cases hok
      · exact hlt
    exact hsteady m hlt (fun k hk => hfails k (Nat.le_of_succ_le hk)) hok
  · intro hsteady m hm hfails hok
    refine hsteady m (Nat.le_of_succ_le hm) (fun k hk hkm => ?_) hok
    rcases Nat.eq_or_lt_of_le hk with rfl | hlt
    · exact h
    · exact hfails k hlt hkm

theorem Server.steady_iff {n : ℕ} (h : db.writeFails n = false) :
    db.Steady n ↔ db.writeFails (n + 1) = false := by
  constructor
  · intro hsteady
    exact hsteady n (Nat.le_refl n) (fun k hk hkn => absurd hkn (Nat.not_lt.mpr hk)) h
  · intro hnext m hm hfails _
    rcases Nat.eq_or_lt_of_le hm with rfl | hlt
    · exact hnext
    · rw [hfails n (Nat.le_refl n) hlt] at h
      cases h

/-- One round of a loop that inserts a row and then updates another table. -/
def Inserts (db : Server) (impl : SqlStatusImpl D) (rows : Tables → List R) (row : R)
    (m : SqlM D Unit) : Prop :=
  ∀ s : Session D, s.impl = impl → ∃ r s', outcome m s = (r, s') ∧ s'.impl = impl ∧
    if db.writeFails s.writes then
      r = .error sociError ∧ rows s'.tables = rows s.tables ∧ s'.writes = s.writes + 1
    else
      rows s'.tables = rows s.tables ++ [row] ∧ s'.writes = s.writes + 2 ∧
        r = if db.writeFails (s.writes + 1) then .error sociError else .ok ()

/-- Every round adds a row or leaves the table, so that there is a row at the end. -/
theorem Inserts.rows_eq (h : Inserts db impl rows row m) (hs : s.impl = impl)
    (hend : Halts .diverges (forever m) s (.ok ()) s') :
    ∃ k, rows s'.tables = rows s.tables ++ List.replicate (k + 1) row := by
  obtain ⟨-, bound, hbound⟩ := hend
  have hround := hbound bound (Nat.le_refl bound)
  clear hbound
  induction bound generalizing s with
  | zero => cases hround
  | succ n ih =>
      obtain ⟨r, s₁, hm, hs₁, hcase⟩ := h s hs
      rw [forever, outcome_retry_succ, hm] at hround
      split at hcase
      · obtain ⟨rfl, hrows, -⟩ := hcase
        obtain ⟨k, hk⟩ := ih hs₁ hround
        exact ⟨k, by rw [hk, hrows]⟩
      · obtain ⟨hrows, -, hr⟩ := hcase
        split at hr
        · subst hr
          obtain ⟨k, hk⟩ := ih hs₁ hround
          refine ⟨k + 1, ?_⟩
          rw [hk, hrows, List.append_assoc, List.replicate_succ (n := k + 1)]
          rfl
        · subst hr
          cases hround
          exact ⟨0, hrows⟩

/-- The first statement inserts the row, and the second one decides. -/
theorem Inserts.once_of_ok (h : Inserts db impl rows row m) (hs : s.impl = impl)
    (hok : db.writeFails s.writes = false) :
    (∃ s', Halts .diverges (forever m) s (.ok ()) s' ∧
      rows s'.tables = rows s.tables ++ [row]) ↔ db.writeFails (s.writes + 1) = false := by
  obtain ⟨r, s₁, hm, hs₁, hcase⟩ := h s hs
  rw [if_neg (by rw [hok]; exact Bool.false_ne_true)] at hcase
  obtain ⟨hrows, -, hr⟩ := hcase
  cases hnext : db.writeFails (s.writes + 1) with
  | false =>
      rw [hnext] at hr
      subst hr
      exact iff_of_true ⟨s₁, halts_retry_ok hm, hrows⟩ rfl
  | true =>
      rw [hnext] at hr
      subst hr
      refine iff_of_false ?_ nofun
      rintro ⟨s', hend, hone⟩
      obtain ⟨k, hk⟩ := h.rows_eq hs₁ ((halts_retry_caught hm rfl).mp hend)
      rw [hk, hrows, List.append_assoc, List.append_cancel_left_eq] at hone
      cases hone

/-- The row is stored once if and only if the `UPDATE` after the first `INSERT` succeeds. -/
theorem Inserts.once_iff (h : Inserts db impl rows row m) (hdb : db.Recovers)
    (hs : s.impl = impl) :
    (∃ s', Halts .diverges (forever m) s (.ok ()) s' ∧
      rows s'.tables = rows s.tables ++ [row]) ↔ db.Steady s.writes := by
  obtain ⟨first, hfirst, hok⟩ := hdb.write s.writes
  -- the induction is on the distance to a statement that succeeds
  obtain ⟨d, rfl⟩ := Nat.exists_eq_add_of_le hfirst
  clear hfirst
  induction d generalizing s with
  | zero =>
      rw [Nat.add_zero] at hok
      rw [h.once_of_ok hs hok, Server.steady_iff hok]
  | succ d ih =>
      cases hfails : db.writeFails s.writes with
      | false => rw [h.once_of_ok hs hfails, Server.steady_iff hfails]
      | true =>
          obtain ⟨r, s₁, hm, hs₁, hcase⟩ := h s hs
          rw [if_pos hfails] at hcase
          obtain ⟨rfl, hrows, hwrites⟩ := hcase
          have hnext : db.writeFails (s₁.writes + d) = false := by
            rw [hwrites, Nat.add_assoc, Nat.add_comm 1 d]
            exact hok
          rw [← Server.Steady.succ hfails, ← hwrites, ← ih hs₁ hnext, hrows]
          exact exists_congr fun s' => and_congr_left' (halts_retry_caught hm rfl)

end Insert

section Once

variable (db : Server) (clock : ℕ → Int64) (s : Session D)

/-- One call of `add_message` adds one row with the text. -/
def StoresMessage (message : String) : Prop :=
  ∃ s', Halts .diverges (addMessage db clock message) s (.ok ()) s' ∧
    s'.tables.messages = s.tables.messages ++ [⟨s.impl.name, message⟩]

/-- One call of `add_child` adds one row with the uri. -/
def StoresChild (childUri : String) : Prop :=
  ∃ s' childId, Halts .diverges (addChild db clock childUri) s (.ok ()) s' ∧
    s'.tables.childUri = s.tables.childUri ++ [⟨s.impl.name, childUri, childId⟩]

variable {db clock s}

/-- An `INSERT` of one row and the `UPDATE` of `mtime`. -/
theorem inserts_statements {R : Type} (db : Server) (impl : SqlStatusImpl D)
    (rows : Tables → List R) (row : R) (f : String → Tables → Tables)
    (hrows : ∀ t, rows (f impl.name t) = rows t ++ [row])
    (hstatus : ∀ t name mtime, rows (t.updateMtime name mtime) = rows t) :
    Inserts db impl rows row (do
      let s ← get
      statement db fun t => .ok (f s.impl.name t)
      touchRow db) := by
  intro s hs
  rw [outcome_bind_ok (outcome_get s)]
  cases hfirst : db.writeFails s.writes with
  | true =>
      have herror : outcome (statement db fun t => .ok (f s.impl.name t)) s =
          (.error sociError, { s with writes := s.writes + 1 }) := by
        rw [outcome_statement, hfirst]
        rfl
      exact ⟨_, _, outcome_bind_error herror, hs, rfl, rfl, rfl⟩
  | false =>
      have hok : outcome (statement db fun t => .ok (f s.impl.name t)) s =
          (.ok (), { s with tables := f s.impl.name s.tables, writes := s.writes + 1 }) := by
        rw [outcome_statement, hfirst]
        rfl
      rw [outcome_bind_ok hok, outcome_touchRow, outcome_statement]
      cases hsecond : db.writeFails (s.writes + 1) with
      | true => exact ⟨_, _, rfl, hs, by rw [hs]; exact hrows _, rfl, rfl⟩
      | false =>
          refine ⟨_, _, rfl, hs, ?_, rfl, rfl⟩
          rw [hs]
          exact (hstatus _ _ _).trans (hrows _)

theorem storesMessage_iff (hdb : db.Recovers) (message : String) :
    StoresMessage db clock s message ↔ db.Steady s.writes := by
  have hcall : ∀ n, outcome (addMessage db clock message n) s =
      outcome (forever (storeMessage db message) n)
        (s.super fun base => base.addMessage clock message) := by
    intro n
    rw [addMessage, outcome_bind_ok (outcome_get s)]
    cases hloaded : s.impl.messagesLoaded with
    | false => rfl
    | true => simp [messages, outcome_bind, hloaded, outcome_super]
  have hinserts := inserts_statements db
    (s.super fun base => base.addMessage clock message).impl Tables.messages
    ⟨s.impl.name, message⟩ (fun name t => t.insertMessage ⟨name, message⟩)
    (fun _ => rfl) (fun _ _ _ => rfl)
  have honce := hinserts.once_iff hdb (s := s.super fun base => base.addMessage clock message) rfl
  refine Iff.trans ?_ honce
  exact exists_congr fun s' => and_congr_left' (halts_congr hcall)

/-- One round of a loop that can fail only in its query. -/
def Selects (db : Server) (P : Session D → Prop) (m : SqlM D Unit) : Prop :=
  ∀ s, P s → ∃ s', outcome m s =
    (if db.queryFails s.queries then .error sociError else .ok (), s') ∧
      P s' ∧ s'.queries = s.queries + 1

theorem Selects.halts {P : Session D → Prop} {m : SqlM D Unit} (h : Selects db P m)
    (hdb : db.Recovers) (hs : P s) : ∃ s', P s' ∧ Halts .diverges (forever m) s (.ok ()) s' := by
  obtain ⟨first, hfirst, hok⟩ := hdb.query s.queries
  obtain ⟨d, rfl⟩ := Nat.exists_eq_add_of_le hfirst
  clear hfirst
  induction d generalizing s with
  | zero =>
      obtain ⟨s₁, hm, hs₁, -⟩ := h s hs
      rw [Nat.add_zero] at hok
      rw [hok] at hm
      exact ⟨s₁, hs₁, halts_retry_ok hm⟩
  | succ d ih =>
      obtain ⟨s₁, hm, hs₁, hqueries⟩ := h s hs
      cases hfails : db.queryFails s.queries with
      | false =>
          rw [hfails] at hm
          exact ⟨s₁, hs₁, halts_retry_ok hm⟩
      | true =>
          rw [hfails] at hm
          have hnext : db.queryFails (s₁.queries + d) = false := by
            rw [hqueries, Nat.add_assoc, Nat.add_comm 1 d]
            exact hok
          obtain ⟨s', hs', hend⟩ := ih hs₁ hnext
          exact ⟨s', hs', (halts_retry_caught hm rfl).mpr hend⟩

variable (clock) in
/-- The children are loaded before one is added. -/
theorem halts_loadChildren (hdb : db.Recovers) (s : Session D) :
    ∃ s', (s'.tables = s.tables ∧ s'.writes = s.writes ∧ s'.impl.name = s.impl.name) ∧
      Halts .diverges (forever (loadChildren db clock)) s (.ok ()) s' := by
  have hselects : Selects db (fun s' : Session D => s'.tables = s.tables ∧
      s'.writes = s.writes ∧ s'.impl.name = s.impl.name) (loadChildren db clock) := by
    intro s₁ hs₁
    rw [outcome_loadChildren]
    cases db.queryFails s₁.queries with
    | true => exact ⟨_, rfl, hs₁, rfl⟩
    | false => exact ⟨_, rfl, hs₁, rfl⟩
  exact hselects.halts hdb ⟨rfl, rfl, rfl⟩

variable (clock) in
/-- The loop of `add_child` starts with the tables as they were. -/
theorem exists_halts_addChild (hdb : db.Recovers) (s : Session D) (childUri : String) :
    ∃ s₁, s₁.tables = s.tables ∧ s₁.writes = s.writes ∧ s₁.impl.name = s.impl.name ∧
      ∀ r s', Halts .diverges (addChild db clock childUri) s r s' ↔
        Halts .diverges (forever (storeChild db childUri)) s₁ r s' := by
  cases hloaded : s.impl.childrenLoaded with
  | true =>
      refine ⟨s.super fun base => base.addChild clock childUri, rfl, rfl, rfl, fun r s' => ?_⟩
      apply halts_congr
      intro n
      rw [addChild, outcome_bind_ok (outcome_get s), hloaded]
      rfl
  | false =>
      obtain ⟨s₁, ⟨htables, hwrites, hname⟩, hend⟩ := halts_loadChildren clock hdb s
      refine ⟨s₁.super fun base => base.addChild clock childUri, htables, hwrites, hname,
        fun r s' => ?_⟩
      have hcall : ∀ n, outcome (addChild db clock childUri n) s =
          outcome (do
            forever (loadChildren db clock) n
            super fun base => base.addChild clock childUri
            forever (storeChild db childUri) n) s := by
        intro n
        rw [addChild, outcome_bind_ok (outcome_get s), hloaded]
        change outcome (children db clock n >>= fun _ => _) s = _
        rw [outcome_bind, outcome_bind, outcome_children hloaded]
        cases outcome (forever (loadChildren db clock) n) s with
        | mk r s' =>
            cases r with
            | error e => rfl
            | ok u => rfl
      rw [halts_congr hcall, hend.bind_iff]
      exact halts_congr fun n => outcome_bind_ok (outcome_super _)

/-- A loop whose body cannot be left does not return. -/
theorem not_halts_forever {m : SqlM D Unit} {e : Failure} (h : ∀ s, outcome m s = (.error e, s))
    (s' : Session D) : ¬ Halts .diverges (forever m) s (.ok ()) s' := by
  intro hend
  cases he : e.isException with
  | true => exact not_halts_retry (fun s _ => ⟨e, s, h s, he, trivial⟩) trivial hend
  | false =>
      obtain ⟨hr, bound, hbound⟩ := hend
      have hround := hbound (bound + 1) (Nat.le_succ bound)
      rw [forever, outcome_retry_succ, h s] at hround
      simp [he] at hround

theorem storesChild_iff (hdb : db.Recovers) (childUri : String) :
    StoresChild db clock s childUri ↔
      (∃ uri, Uri.parse childUri.toList = .ok uri) ∧ db.Steady s.writes := by
  obtain ⟨s₁, htables, hwrites, hname, hcall⟩ := exists_halts_addChild clock hdb s childUri
  rw [StoresChild]
  simp only [hcall]
  cases hparse : Uri.parse childUri.toList with
  | error e =>
      have hbody : ∀ s : Session D, outcome (storeChild db childUri) s = (.error e, s) := by
        intro s
        rw [storeChild, hparse, outcome_bind_error (outcome_lift _ s)]
      refine iff_of_false ?_ ?_
      · rintro ⟨s', childId, hend, -⟩
        exact not_halts_forever hbody s' hend
      · rintro ⟨⟨uri, huri⟩, -⟩
        cases huri
  | ok uri =>
      have hbody : ∀ s : Session D, outcome (storeChild db childUri) s = outcome (do
          let s ← get
          statement db fun t =>
            .ok (t.insertChild ⟨s.impl.name, childUri, String.ofList uri.leaf⟩)
          touchRow db) s := by
        intro s
        rw [storeChild, hparse, outcome_bind_ok (outcome_lift _ s)]
      have hinserts : Inserts db s₁.impl Tables.childUri
          ⟨s.impl.name, childUri, String.ofList uri.leaf⟩ (storeChild db childUri) := by
        intro s' hs'
        rw [hbody, ← hname]
        exact inserts_statements _ _ _ _ (fun name t =>
          t.insertChild ⟨name, childUri, String.ofList uri.leaf⟩) (fun _ => rfl)
          (fun _ _ _ => rfl) s' hs'
      have honce := hinserts.once_iff hdb (s := s₁) rfl
      rw [htables, hwrites] at honce
      rw [and_iff_right ⟨uri, rfl⟩, ← honce]
      constructor
      · rintro ⟨s', childId, hend, hrows⟩
        refine ⟨s', hend, ?_⟩
        obtain ⟨k, hk⟩ := hinserts.rows_eq rfl hend
        rw [htables, hrows, List.append_cancel_left_eq] at hk
        rw [hrows, List.append_cancel_left_eq]
        exact (List.cons.inj hk).1 ▸ rfl
      · rintro ⟨s', hend, hrows⟩
        exact ⟨s', _, hend, hrows⟩

/-- For every pattern of failures without an infinite row of them, one call of
`add_message` or `add_child` stores one row exactly when the writing statement after the
first one that succeeds succeeds too; the uri of a child has to be one. -/
theorem stored_once_iff (hdb : db.Recovers) :
    (∀ message, StoresMessage db clock s message ↔ db.Steady s.writes) ∧
      ∀ childUri, StoresChild db clock s childUri ↔
        (∃ uri, Uri.parse childUri.toList = .ok uri) ∧ db.Steady s.writes :=
  ⟨storesMessage_iff hdb, storesChild_iff hdb⟩

end Once

section Samples

/-- A handle on a status that has no rows yet. -/
def newSession : Session ℤ where
  tables := {}
  impl := { StatusImpl.new fun _ => 0 with name := "s-1" }

/-- The second writing statement fails, and no other one. -/
def lostUpdate : Server where
  writeFails n := n = 1
  queryFails _ := false

theorem recovers_sound : Server.sound.Recovers where
  write n := ⟨n, Nat.le_refl n, rfl⟩
  query n := ⟨n, Nat.le_refl n, rfl⟩

theorem recovers_lostUpdate : lostUpdate.Recovers where
  write n := ⟨n + 2, Nat.le_add_right n 2, by simp [lostUpdate]⟩
  query n := ⟨n, Nat.le_refl n, rfl⟩

theorem stored_once_sound : Server.sound.Recovers ∧
    StoresMessage Server.sound (fun _ => 0) newSession "text" :=
  ⟨recovers_sound, ((stored_once_iff recovers_sound).1 "text").mpr fun _ _ _ _ => rfl⟩

/-- A message is stored twice when the `UPDATE` after its `INSERT` fails. -/
theorem not_stored_once :
    ¬ ∀ (db : Server) (clock : ℕ → Int64) (s : Session ℤ) (message : String), db.Recovers →
      StoresMessage db clock s message := by
  intro h
  have hsteady := (storesMessage_iff recovers_lostUpdate "text").mp
    (h lostUpdate (fun _ => 0) newSession "text" recovers_lostUpdate)
  have hnext := hsteady 0 (Nat.le_refl 0) (fun k _ hk => absurd hk (Nat.not_lt_zero k)) rfl
  exact absurd hnext (by decide)

end Samples

section Create

variable (clock : ℕ → Int64)

/-- `insert` stores the row and returns, or it throws. -/
def InsertEnds (s : Session D) : Prop :=
  (∃ s', Halts .diverges (insert .sound) s (.ok ()) s' ∧
    s'.tables.status = s.tables.status ++ [.of s.impl.toStatusImpl]) ∨
  ∃ e s', Halts .diverges (insert .sound) s (.error e) s'

/-- `do_create_global_status_v1` returns or throws. -/
def CreateEnds (s : Session D) (baseUri name operation uri component : String)
    (parentUri : Option String) : Prop :=
  ∃ r s', Halts .diverges
    (doCreateGlobalStatus .sound clock baseUri name operation uri component parentUri) s r s'

/-- A name that is not taken is stored in the first round. -/
theorem halts_insert {s : Session D}
    (h : s.impl.name ∉ s.tables.status.map StatusRow.name) :
    Halts .diverges (insert .sound) s (.ok ()) { s with
      tables := { s.tables with
        status := s.tables.status ++ [.of s.impl.toStatusImpl] }
      writes := s.writes + 1 } := by
  apply halts_retry_ok
  have hinsert : s.tables.insertStatus (.of s.impl.toStatusImpl) = .ok { s.tables with
      status := s.tables.status ++ [.of s.impl.toStatusImpl] } := if_neg h
  rw [outcome_bind_ok (outcome_get s), outcome_statement, hinsert]
  rfl

/-- With a name that is taken every round fails. -/
theorem outcome_insert_late {s : Session D}
    (h : s.impl.name ∈ s.tables.status.map StatusRow.name) (n : ℕ) :
    (outcome (insert .sound n) s).1 = .error .diverges := by
  refine outcome_retry_late (P := fun s : Session D =>
    s.impl.name ∈ s.tables.status.map StatusRow.name) ?_ h n
  intro s hs
  refine ⟨sociError, { s with writes := s.writes + 1 }, ?_, rfl, hs⟩
  have hinsert : s.tables.insertStatus (.of s.impl.toStatusImpl) = .error sociError := if_pos hs
  rw [outcome_bind_ok (outcome_get s), outcome_statement, hinsert]
  rfl

theorem insertEnds_iff (s : Session D) :
    InsertEnds s ↔ s.impl.name ∉ s.tables.status.map StatusRow.name := by
  constructor
  · intro h hmem
    have hnever : ∀ r s', ¬ Halts .diverges (insert .sound) s r s' := by
      rintro r s' ⟨hr, bound, hbound⟩
      have hlate := outcome_insert_late hmem bound
      rw [hbound bound (Nat.le_refl bound)] at hlate
      exact hr hlate
    rcases h with ⟨s', hend, -⟩ | ⟨e, s', hend⟩
    · exact hnever _ s' hend
    · exact hnever _ s' hend
  · intro h
    exact .inl ⟨_, halts_insert h, rfl⟩

theorem map_name_updateStatus (t : Tables) (name : String) {f : StatusRow → StatusRow}
    (hf : ∀ row, (f row).name = row.name) :
    (t.updateStatus name f).status.map StatusRow.name = t.status.map StatusRow.name := by
  rw [Tables.updateStatus, List.map_map]
  refine List.map_congr_left fun row _ => ?_
  rw [Function.comp_apply]
  split
  · exact hf row
  · rfl

/-- A round of the loop of `state( state )` succeeds, and changes no name. -/
theorem exists_storeState (state : State) (s : Session D) : ∃ b s',
    outcome (storeState .sound state) s = (.ok b, s') ∧ s'.impl = s.impl ∧
      s'.tables.status.map StatusRow.name = s.tables.status.map StatusRow.name := by
  have hquery : outcome (query .sound fun t => t.statusOf s.impl.name) s =
      (.ok (s.tables.statusOf s.impl.name), { s with queries := s.queries + 1 }) := rfl
  rw [storeState, outcome_bind_ok (outcome_get s), outcome_bind_ok hquery]
  dsimp only
  split
  · exact ⟨false, _, rfl, rfl, rfl⟩
  · exact ⟨true, _, rfl, rfl, map_name_updateStatus s.tables s.impl.name fun _ => rfl⟩

/-- A fresh handle has its state set without being loaded. -/
theorem halts_setState {s : Session D} (h : s.impl.shouldLoad = false) (state : State) :
    ∃ b s', Halts .diverges (setState .sound clock state) s (.ok b) s' ∧
      s'.impl.name = s.impl.name ∧
      s'.tables.status.map StatusRow.name = s.tables.status.map StatusRow.name := by
  obtain ⟨t, k, hbase⟩ := StatusImpl.setState_eq clock s.impl.toStatusImpl state
  have hname : ((s.impl.toStatusImpl.setState clock state).2).name = s.impl.name := by rw [hbase]
  have hload : ¬ (s.impl.shouldLoad && !s.impl.loaded) = true := by simp [h]
  have hset : ∀ n, outcome (setState .sound clock state n) s =
      outcome (if !(s.impl.toStatusImpl.setState clock state).1 then pure false
        else forever (storeState .sound state) n)
        (s.super fun _ => (s.impl.toStatusImpl.setState clock state).2) := by
    intro n
    rw [setState, outcome_bind_ok (outcome_get s), if_neg hload]
    rfl
  cases hvalid : (s.impl.toStatusImpl.setState clock state).1 with
  | false =>
      simp only [hvalid] at hset
      exact ⟨false, _, (halts_congr hset).mpr (halts_pure false), hname, rfl⟩
  | true =>
      simp only [hvalid] at hset
      obtain ⟨b, s', hround, himpl, hnames⟩ := exists_storeState state
        (s.super fun _ => (s.impl.toStatusImpl.setState clock state).2)
      exact ⟨b, s', (halts_congr hset).mpr (halts_retry_ok hround),
        (congrArg (fun impl => impl.name) himpl).trans hname, hnames⟩

/-- The handle of `StatusManager::create` before its state is set. -/
def created (baseUri name operation uri component : String) : SqlStatusImpl D where
  toStatusImpl :=
    let base : StatusImpl D := { StatusImpl.new clock with baseUri := baseUri }
    let base := base.setName clock name
    let base := base.setOperation clock operation
    let base := base.setResourceUri clock uri
    base.setComponent clock component

theorem outcome_create (s : Session D) (baseUri name operation uri component : String) (n : ℕ) :
    outcome (create .sound clock baseUri name operation uri component n) s =
      outcome (setState .sound clock .pending n >>= fun _ => insert .sound n)
        { s with impl := created clock baseUri name operation uri component } := rfl

/-- The state is set, and what is left of `create` is the `insert` of a handle with the name. -/
theorem exists_create (s : Session D) (baseUri name operation uri component : String) :
    ∃ s₁ bound, s₁.impl.name = name ∧
      s₁.tables.status.map StatusRow.name = s.tables.status.map StatusRow.name ∧
      ∀ n, bound ≤ n → outcome (create .sound clock baseUri name operation uri component n) s =
        outcome (insert .sound n) s₁ := by
  obtain ⟨b, s₁, ⟨-, bound, hbound⟩, hname, hnames⟩ := halts_setState clock
    (s := { s with impl := created clock baseUri name operation uri component }) rfl .pending
  refine ⟨s₁, bound, hname, hnames, fun n hn => ?_⟩
  rw [outcome_create, outcome_bind_ok (hbound n hn)]

theorem halts_setParentUri (parent : String) (s : Session D) :
    ∃ s', Halts .diverges (setParentUri .sound clock parent) s (.ok ()) s' := by
  have hstore : Halts .diverges (forever (storeParentUri .sound))
      (s.super fun base => base.setParentUri clock parent) (.ok ()) _ := halts_retry_ok rfl
  exact ⟨_, (halts_congr fun n => outcome_bind_ok (outcome_super _)).mpr hstore⟩

theorem createEnds_iff (s : Session D) (baseUri name operation uri component : String)
    (parentUri : Option String) :
    CreateEnds clock s baseUri name operation uri component parentUri ↔
      name ∉ s.tables.status.map StatusRow.name := by
  obtain ⟨s₁, bound₁, hname, hnames, hcreate⟩ :=
    exists_create clock s baseUri name operation uri component
  constructor
  · rintro ⟨r, s', hr, bound, hbound⟩ hmem
    have hlate := outcome_insert_late (s := s₁) (by rw [hname, hnames]; exact hmem)
      (max bound bound₁)
    have hend := hbound (max bound bound₁) (Nat.le_max_left _ _)
    unfold doCreateGlobalStatus at hend
    rw [outcome_tryCatch, outcome_bind, hcreate _ (Nat.le_max_right _ _)] at hend
    cases houtcome : outcome (insert .sound (max bound bound₁)) s₁ with
    | mk r' s'' =>
        rw [houtcome] at hlate hend
        dsimp only at hlate
        subst hlate
        cases hend
        exact hr rfl
  · intro h
    obtain ⟨s₂, hinserted⟩ : ∃ s₂, Halts .diverges (insert .sound) s₁ (.ok ()) s₂ :=
      ⟨_, halts_insert (by rw [hname, hnames]; exact h)⟩
    have hcreated : Halts .diverges
        (create .sound clock baseUri name operation uri component) s (.ok ()) s₂ := by
      obtain ⟨-, bound₂, hinsert⟩ := hinserted
      refine ⟨nofun, max bound₁ bound₂, fun n hn => ?_⟩
      rw [hcreate n (Nat.le_trans (Nat.le_max_left _ _) hn)]
      exact hinsert n (Nat.le_trans (Nat.le_max_right _ _) hn)
    cases parentUri with
    | none =>
        have hend := (hcreated.bind_iff (q := fun _ _ => pure ())).mpr (halts_pure ())
        exact ⟨_, _, hend.tryCatch _⟩
    | some parent =>
        obtain ⟨s', hparent⟩ := halts_setParentUri clock parent s₂
        have hend := (hcreated.bind_iff (q := fun n _ => setParentUri .sound clock parent n)).mpr
          hparent
        exact ⟨_, _, hend.tryCatch _⟩

/-- For every content of the table and every name, a call of `insert` with a database that
answers from its content ends exactly when the name is not taken; and so does the handler
that creates a status. -/
theorem insert_ends_iff :
    (∀ s : Session D, InsertEnds s ↔ s.impl.name ∉ s.tables.status.map StatusRow.name) ∧
      ∀ (s : Session D) (baseUri name operation uri component : String)
        (parentUri : Option String),
        CreateEnds clock s baseUri name operation uri component parentUri ↔
          name ∉ s.tables.status.map StatusRow.name :=
  ⟨insertEnds_iff, createEnds_iff clock⟩

/-- A handle whose name is taken. -/
def takenSession : Session ℤ :=
  { newSession with tables := { status := [.of newSession.impl.toStatusImpl] } }

theorem not_insert_ends : ¬ ∀ s : Session ℤ, InsertEnds s := by
  intro h
  have hfree := (insertEnds_iff takenSession).mp (h takenSession)
  exact hfree (by simp [takenSession, StatusRow.of])

end Create

end SqlStatus

end Gearbox
