import Gearbox.Status.Progress

/-!
# Progress 100 means finished

Clients poll the progress of a status and read its code once it is 100. The operations
that finish a status write the progress together with the state and the code, or after
them: `end` and the calls of the base class, which the transient implementation uses, and
`checkpoint`. `Truthful` is what the clients rely on, and `Honest` is the preorder that
all these writes follow: a status that is truthful stays so, one that is in a final state
stays in a final state, and one that has a code keeps one.

`Status::progress` asks nothing of the state and the code, so a run is truthful as long
as nobody asks for 100 before the status is finished (`truthful_of_safe`).
-/

namespace Gearbox

namespace Status

open Interleaving

/-- What a client reads of a status. -/
structure Vitals where
  state : State
  progress : ℕ
  code : ℤ
  deriving DecidableEq, Repr

def Row.vitals (r : Row) : Vitals := ⟨r.state, r.progress, r.code⟩

def Transient.TransientStatusData.vitals (r : Transient.TransientStatusData) : Vitals :=
  ⟨r.state, r.progress, r.code⟩

/-- The states in which nobody works for the status any more. -/
def State.isFinal : State → Bool
  | .completed | .stopped | .cancelling | .cancelled => true
  | _ => false

/-- The final states are left only for `unknown`. -/
theorem isFinal_of_validStateTransition {s s' : State} (hs : s.isFinal = true)
    (hne : s' ≠ .unknown) (h : validStateTransition s s' = true) : s'.isFinal = true := by
  revert hs hne h
  cases s <;> cases s' <;> decide

namespace Vitals

/-- The progress is at most 100, and 100 only with a code and in a final state. -/
def Truthful (v : Vitals) : Prop :=
  v.progress ≤ 100 ∧ (v.progress = 100 → v.code ≠ -1 ∧ v.state.isFinal = true)

/-- The status has a code and is in a final state. -/
def Done (v : Vitals) : Prop := v.code ≠ -1 ∧ v.state.isFinal = true

instance (v : Vitals) : Decidable v.Truthful :=
  inferInstanceAs (Decidable (v.progress ≤ 100 ∧
    (v.progress = 100 → v.code ≠ -1 ∧ v.state.isFinal = true)))

/-- What a write keeps. -/
structure Honest (v v' : Vitals) : Prop where
  truthful : v.Truthful → v'.Truthful
  final : v.state.isFinal = true → v'.state.isFinal = true
  coded : v.code ≠ -1 → v'.code ≠ -1

theorem Honest.refl (v : Vitals) : Honest v v := ⟨id, id, id⟩

theorem Honest.trans {v₁ v₂ v₃ : Vitals} (h : Honest v₁ v₂) (h' : Honest v₂ v₃) :
    Honest v₁ v₃ :=
  ⟨h'.truthful ∘ h.truthful, h'.final ∘ h.final, h'.coded ∘ h.coded⟩

theorem Honest.done {v v' : Vitals} (h : Honest v v') (hv : v.Done) : v'.Done :=
  ⟨h.coded hv.1, h.final hv.2⟩

theorem honest_state {v : Vitals} {s : State} (hne : s ≠ .unknown)
    (hv : validStateTransition v.state s = true) : Honest v { v with state := s } where
  truthful h := ⟨h.1, fun hp =>
    ⟨(h.2 hp).1, isFinal_of_validStateTransition (h.2 hp).2 hne hv⟩⟩
  final h := isFinal_of_validStateTransition h hne hv
  coded := id

theorem honest_code {v : Vitals} {code : ℤ} (hcode : code ≠ -1) :
    Honest v { v with code := code } where
  truthful h := ⟨h.1, fun hp => ⟨hcode, (h.2 hp).2⟩⟩
  final := id
  coded _ := hcode

/-- A progress below 100 promises nothing, and 100 what is the case already. -/
theorem honest_progress {v : Vitals} {p : ℕ} (hp : p < 100 ∨ p = 100 ∧ v.Done) :
    Honest v { v with progress := p } where
  truthful _ := by
    rcases hp with hp | ⟨rfl, hdone⟩
    · exact ⟨Nat.le_of_lt hp, fun h => absurd h (Nat.ne_of_lt hp)⟩
    · exact ⟨Nat.le_refl _, fun _ => hdone⟩
  final := id
  coded := id

/-- Everything at once. -/
theorem honest_of_done {v v' : Vitals} (hdone : v'.Done) (hp : v'.progress ≤ 100) :
    Honest v v' :=
  ⟨fun _ => ⟨hp, fun _ => hdone⟩, fun _ => hdone.2, fun _ => hdone.1⟩

end Vitals

/-- The call does not promise that the status `v` is finished when it is not: it sets no
state `unknown`, does not fail with the code -1, and asks for a progress of at most 100,
and for 100 only when the status is done. -/
def Change.Safe (c : Change) (v : Option Vitals) : Prop :=
  (∀ code, c = .fail code → code ≠ -1) ∧ (∀ s, c = .state s → s ≠ .unknown) ∧
    ∀ p, c.asked = some p → p < 100 ∨ p = 100 ∧ ∀ x, v = some x → x.Done

section Sql

open Vitals

/-- The row is written honestly. -/
def HonestRow (r r' : Row) : Prop := Honest r.vitals r'.vitals

theorem honestRow_endTx {code : ℤ} {s : State} {h : Handle} {r r' : Row}
    (hcode : code ≠ -1) (hs : s.isFinal = true) (hr : r.vitals.Truthful)
    (hp : h.progress = r.progress) (hc : h.code = r.code) (hstate : h.state = s) :
    HonestRow r' ((h.complete code).endTx s r') := by
  unfold Handle.endTx
  split
  · rw [complete_state, hstate]
    unfold Handle.complete
    split
    · exact honest_of_done ⟨hcode, hs⟩ (Nat.le_refl _)
    · -- the row was finished when it was loaded, and its code is written again
      rename_i hge
      rw [hp] at hge
      have heq : r.progress = 100 := Nat.le_antisymm hr.1 (Nat.le_of_not_lt hge)
      refine honest_of_done ⟨?_, hs⟩ ?_
      · change h.code ≠ -1
        rw [hc]
        exact (hr.2 heq).1
      · change h.progress ≤ 100
        rw [hp, heq]
  · exact Honest.refl _

theorem errGone_ne : errGone ≠ -1 := by decide

theorem discipline_honest :
    Discipline HonestRow (fun r => r.vitals.Truthful) (fun r => r.state.isFinal = true)
      (fun r => r.vitals.Done) (fun code => code ≠ -1) (fun s => s ≠ .unknown) where
  refl r := Honest.refl r.vitals
  keep _ _ h := ⟨h.truthful, h.final, h.done⟩
  real _ h := h
  ending code s h r r' hcode hs hr _ hp hc hstate := by
    refine honestRow_endTx hcode ?_ hr hp hc hstate
    rcases hs with rfl | rfl <;> rfl
  state s h r hne _ hstate := by
    unfold Handle.stateTx
    split
    · rename_i hv
      rw [hstate]
      exact honest_state hne hv
    · exact Honest.refl _
  stopped := ⟨by decide, fun r _ h => by rw [h]; rfl⟩
  code _ _ := honest_code errGone_ne
  gone _ hJ h := ⟨fun hne => errGone_ne (h.symm.trans hne), hJ⟩
  progress r hK _ := honest_progress (.inr ⟨rfl, hK⟩)

theorem along_perform_honest {X : Type} {Y : X → Type} (c : Change) (h : Handle) {r : Row}
    (hr : r.vitals.Truthful) (hc : c.Safe (some r.vitals)) :
    (perform (Y := Y) c h).along HonestRow (fun _ _ => True) r := by
  obtain ⟨hcode, hstate, hasked⟩ := hc
  refine discipline_honest.along_perform (fun _ _ _ => Honest.trans) c h hr
    ⟨hcode, hstate, ?_⟩
  intro p hp r' hr' _
  refine honest_progress ((hasked p hp).imp_right ?_)
  exact fun ⟨heq, hdone⟩ => ⟨heq, Honest.done hr' (hdone _ rfl)⟩

end Sql

namespace Transient

namespace TransientStatusImpl

section Programs

variable {X : Type} {Y : X → Type}

/-- Write through the pointer of the handle. -/
def writing (t : TransientStatusImpl) (f : TransientStatusData → TransientStatusData)
    (d : TransDB) : TransDB :=
  match t.data with
  | none => d
  | some i => d.write i f

/-- `TransientStatusImpl::state(State)` as one action on the records. -/
def changeState (t : TransientStatusImpl) (s : State) :
    Prog TransDB Y (Bool × TransientStatusImpl) := do
  let d ← Prog.transact fun d => (t.setState d s).2.2
  return ((t.setState d s).1, (t.setState d s).2.1)

/-- `TransientStatusImpl::code(int)` -/
def setCode (t : TransientStatusImpl) (code : ℤ) : Prog TransDB Y TransientStatusImpl := do
  let _ ← Prog.transact (t.writing fun r => { r with code := code })
  return { t with code := code }

/-- `TransientStatusImpl::progress(unsigned)` -/
def setProgress (t : TransientStatusImpl) (p : ℕ) : Prog TransDB Y TransientStatusImpl := do
  let _ ← Prog.transact (t.writing fun r => { r with progress := p })
  return { t with progress := p }

/-- `Status::progress(unsigned)` over `TransientStatusImpl` -/
def advance (t : TransientStatusImpl) (p : ℕ) : Prog TransDB Y TransientStatusImpl :=
  if t.progress < p then t.setProgress p else pure t

/-- What `StatusImpl::fail`, `cancel` and `success` throw when the state cannot be
changed. -/
def refused (t : TransientStatusImpl) (s : State) : Reply :=
  .threw (.internalServerError ("Invalid status state change from " ++ state2str t.state
    ++ " to " ++ state2str s))

/-- The end of `fail`, `cancel` and `success`: the progress comes last, since it is what
the clients wait for. -/
def finish (t : TransientStatusImpl) (code : ℤ) :
    Prog TransDB Y (Reply × TransientStatusImpl) := do
  let t ← t.setCode code
  let t ← t.setProgress 100
  return (.returned, t)

/-- `StatusImpl::fail` -/
def fail (t : TransientStatusImpl) (code : ℤ) :
    Prog TransDB Y (Reply × TransientStatusImpl) := do
  let (valid, t) ← t.changeState .completed
  if !valid then
    return (t.refused .completed, t)
  else
    t.finish code

/-- `StatusImpl::success` -/
def success (t : TransientStatusImpl) : Prog TransDB Y (Reply × TransientStatusImpl) :=
  t.fail 0

/-- `StatusImpl::cancel` -/
def cancel (t : TransientStatusImpl) : Prog TransDB Y (Reply × TransientStatusImpl) := do
  if t.state ≠ .cancelled then
    let (valid, t) ← t.changeState .cancelled
    if !valid then
      return (t.refused .cancelled, t)
    else if t.progress < 100 then
      t.finish errConflict
    else
      return (.returned, t)
  else
    return (.returned, t)

/-- What `load` throws. -/
def missing (t : TransientStatusImpl) : Reply :=
  .notFound ("status " ++ t.name ++ " not found")

/-- `Status::checkpoint` over `TransientStatusImpl` -/
def checkpoint (t : TransientStatusImpl) : Prog TransDB Y (Reply × TransientStatusImpl) := do
  let d ← Prog.select
  match t.sync d with
  | none => return (t.missing, (t.superState .unknown).2)
  | some t =>
      match t.state with
      | .stopping | .stopped | .cancelling | .cancelled =>
          let (changed, t) ← t.changeState .stopped
          if changed then
            let (_, t) ← t.finish errGone
            return (.threw .workerStop, t)
          else
            return (.threw .workerStop, t)
      | _ => return (.returned, t)

/-- `WorkerGearbox::do_update_global_status_v1` over transient statuses. The children are
another field of the record. -/
def doUpdateGlobalStatus (name : String) (content : Content) : Prog TransDB Y Reply := do
  let d ← Prog.select
  match fetch name d with
  | none => return missing { name := name }
  | some t =>
      match content with
      | .children => return .returned
      | .progress p =>
          let _ ← t.advance (p % 2 ^ 32).toNat
          return .returned
      | .other =>
          return .badRequest "unexpected content for do_update_global_status_v1"

/-- The program of one call over transient statuses. -/
def perform : Change → TransientStatusImpl → Prog TransDB Y (Reply × TransientStatusImpl)
  | .progress p, t => do
      let t ← t.advance p
      return (.returned, t)
  | .update content, t => do
      let r ← doUpdateGlobalStatus t.name content
      return (r, t)
  | .success, t => t.success
  | .fail code, t => t.fail code
  | .cancel, t => t.cancel
  | .state s, t => do
      let (b, t) ← t.changeState s
      return (.answered b, t)
  | .checkpoint, t => t.checkpoint
  | .sync, t => do
      let d ← Prog.select
      match t.sync d with
      | none => return (t.missing, (t.superState .unknown).2)
      | some t => return (.returned, t)

end Programs

/-- The record that a call through the handle is about. -/
def target (t : TransientStatusImpl) (d : TransDB) : Change → Option Vitals
  | .update _ => (fetch t.name d).bind fun t' => t'.data.map fun i => (d.heap i).vitals
  | _ => t.data.map fun i => (d.heap i).vitals

end TransientStatusImpl

open Vitals

/-- All records are written honestly, and they can be fetched as before. -/
structure HonestDB (d d' : TransDB) : Prop where
  db : d'.db = d.db
  name : ∀ j, (d'.heap j).name = (d.heap j).name
  honest : ∀ j, Honest (d.heap j).vitals (d'.heap j).vitals

theorem HonestDB.refl (d : TransDB) : HonestDB d d :=
  ⟨rfl, fun _ => rfl, fun _ => Honest.refl _⟩

theorem HonestDB.trans {d₁ d₂ d₃ : TransDB} (h : HonestDB d₁ d₂) (h' : HonestDB d₂ d₃) :
    HonestDB d₁ d₃ :=
  ⟨h'.db.trans h.db, fun j => (h'.name j).trans (h.name j),
    fun j => (h.honest j).trans (h'.honest j)⟩

theorem honestDB_write {d : TransDB} {i : ℕ} {f : TransientStatusData → TransientStatusData}
    (hname : (f (d.heap i)).name = (d.heap i).name)
    (hf : Honest (d.heap i).vitals (f (d.heap i)).vitals) : HonestDB d (d.write i f) := by
  have hother : ∀ j, j ≠ i → (d.write i f).heap j = d.heap j :=
    fun j hj => Function.update_of_ne hj _ _
  refine ⟨rfl, fun j => ?_, fun j => ?_⟩ <;> by_cases hj : j = i
  · rw [hj, TransDB.write_heap_self, hname]
  · rw [hother j hj]
  · rwa [hj, TransDB.write_heap_self]
  · rw [hother j hj]
    exact Honest.refl _

namespace TransientStatusImpl

/-- The record that the handle points to has the property `P`. -/
def Points (t : TransientStatusImpl) (P : Vitals → Prop) (d : TransDB) : Prop :=
  ∀ i, t.data = some i → P (d.heap i).vitals

theorem Points.keep {t : TransientStatusImpl} {P : Vitals → Prop} {d d' : TransDB}
    (h : t.Points P d) (hd : HonestDB d d') (hP : ∀ v v', Honest v v' → P v → P v') :
    t.Points P d' :=
  fun i hi => hP _ _ (hd.honest i) (h i hi)

theorem honestDB_writing {t : TransientStatusImpl} {d : TransDB}
    {f : TransientStatusData → TransientStatusData} (hname : ∀ r, (f r).name = r.name)
    (hf : ∀ i, t.data = some i → Honest (d.heap i).vitals (f (d.heap i)).vitals) :
    HonestDB d (t.writing f d) := by
  unfold writing
  split
  · exact HonestDB.refl d
  · rename_i i hi
    exact honestDB_write (hname _) (hf i hi)

section Along

variable {X : Type} {Y : X → Type} {d : TransDB}

theorem along_setProgress {t : TransientStatusImpl} {p : ℕ}
    (hp : p < 100 ∨ p = 100 ∧ t.Points Done d) :
    (t.setProgress (Y := Y) p).along HonestDB (fun _ _ => True) d := by
  refine fun d' hd => ⟨honestDB_writing (fun _ => rfl) fun i hi => ?_, trivial⟩
  refine honest_progress (hp.imp_right ?_)
  exact fun ⟨heq, hdone⟩ => ⟨heq, (hd.honest i).done (hdone i hi)⟩

theorem along_advance {t : TransientStatusImpl} {p : ℕ}
    (hp : p < 100 ∨ p = 100 ∧ t.Points Done d) :
    (t.advance (Y := Y) p).along HonestDB (fun _ _ => True) d := by
  unfold advance
  split
  · exact along_setProgress hp
  · trivial

/-- The code and then the progress of a record in a final state. -/
theorem along_finish {t : TransientStatusImpl} {code : ℤ} (hcode : code ≠ -1)
    (hfinal : t.Points (fun v => v.state.isFinal = true) d) :
    (t.finish (Y := Y) code).along HonestDB (fun _ _ => True) d := by
  intro d₁ hd₁
  refine ⟨honestDB_writing (fun _ => rfl) fun i _ => honest_code hcode, ?_⟩
  refine Prog.along_bind (p := setProgress _ 100) (Prog.along_mono (fun _ _ _ => trivial)
    (along_setProgress (.inr ⟨rfl, ?_⟩)))
  intro i hi
  have hi' : t.data = some i := hi
  have hstate := (hfinal.keep hd₁ fun _ _ h => h.final) i hi'
  unfold writing
  rw [hi']
  rw [TransDB.write_heap_self]
  exact ⟨hcode, hstate⟩

theorem superState_data (t : TransientStatusImpl) (s : State) :
    (t.superState s).2.data = t.data := by
  rw [superState_fields]

/-- A confirmed change has been made to the record. -/
theorem along_changeState {t : TransientStatusImpl} {s : State} (hs : s ≠ .unknown) :
    (t.changeState (Y := Y) s).along HonestDB
      (fun b d' => b.1 = true → b.2.Points (fun v => v.state = s) d') d := by
  intro d' _
  change HonestDB d' (t.setState d' s).2.2 ∧ ((t.setState d' s).1 = true →
    (t.setState d' s).2.1.Points (fun v => v.state = s) (t.setState d' s).2.2)
  unfold setState
  split
  · rename_i hnone
    refine ⟨HonestDB.refl d', fun _ i hi => ?_⟩
    rw [superState_data, hnone] at hi
    cases hi
  · rename_i i hi
    split
    · exact ⟨HonestDB.refl d', fun h => by cases h⟩
    · rename_i hv
      have hvalid : validStateTransition (d'.heap i).state s = true := by simpa using hv
      have hwrite : HonestDB d' (d'.write i fun r => { r with state := s }) :=
        honestDB_write rfl (honest_state (v := (d'.heap i).vitals) hs hvalid)
      refine ⟨hwrite, fun _ j hj => ?_⟩
      change (t.superState s).2.data = some j at hj
      rw [superState_data, hi, Option.some.injEq] at hj
      subst hj
      change ((d'.write i fun r => { r with state := s }).heap i).vitals.state = s
      rw [TransDB.write_heap_self]
      rfl

theorem Points.final {t : TransientStatusImpl} {s : State} (hs : s.isFinal = true)
    (h : t.Points (fun v => v.state = s) d) :
    t.Points (fun v => v.state.isFinal = true) d := by
  intro i hi
  rw [h i hi]
  exact hs

theorem along_fail {t : TransientStatusImpl} {code : ℤ} (hcode : code ≠ -1) :
    (t.fail (Y := Y) code).along HonestDB (fun _ _ => True) d := by
  refine Prog.along_bind (Prog.along_mono ?_ (along_changeState (by decide)))
  rintro ⟨valid, t'⟩ d' hvalid
  cases valid with
  | false => trivial
  | true => exact along_finish hcode ((hvalid rfl).final rfl)

theorem along_cancel (t : TransientStatusImpl) :
    (t.cancel (Y := Y)).along HonestDB (fun _ _ => True) d := by
  unfold cancel
  split
  · refine Prog.along_bind (Prog.along_mono ?_ (along_changeState (by decide)))
    rintro ⟨valid, t'⟩ d' hvalid
    cases valid with
    | false => trivial
    | true =>
        dsimp only
        split
        · contradiction
        · split
          · exact along_finish (by decide) ((hvalid rfl).final rfl)
          · trivial
  · trivial

theorem along_checkpoint (t : TransientStatusImpl) :
    (t.checkpoint (Y := Y)).along HonestDB (fun _ _ => True) d := by
  unfold checkpoint
  rw [Prog.select_bind]
  intro d₁ _
  dsimp only
  split
  · trivial
  · rename_i t₁ _
    have hstop : (t₁.changeState (Y := Y) .stopped >>= fun b =>
        if b.1 = true then do
          let (_, t) ← b.2.finish errGone
          return (Reply.threw .workerStop, t)
        else
          return (.threw .workerStop, b.2)).along HonestDB (fun _ _ => True) d₁ := by
      refine Prog.along_bind (Prog.along_mono ?_ (along_changeState (by decide)))
      rintro ⟨changed, t₂⟩ d₂ hchanged
      split
      · rename_i htrue
        exact Prog.along_bind (Prog.along_mono (fun _ _ _ => trivial)
          (along_finish errGone_ne ((hchanged htrue).final rfl)))
      · trivial
    split
    iterate 4 exact hstop
    trivial

/-- A name is looked up in the same record as long as nothing but the vitals changes. -/
theorem fetch_data {name : String} {d d' : TransDB} (hd : HonestDB d d')
    {t' : TransientStatusImpl} (h : fetch name d' = some t') :
    ∃ t, fetch name d = some t ∧ t.data = t'.data := by
  have hsame : (fun i => decide ((d'.heap i).name = name)) =
      fun i => decide ((d.heap i).name = name) := by
    funext i
    rw [hd.name i]
  unfold fetch load at *
  dsimp only [Option.or_none] at *
  rw [hd.db, hsame] at h
  cases hfind : d.db.findRev? fun i => (d.heap i).name = name with
  | none =>
      rw [hfind] at h
      cases h
  | some i =>
      rw [hfind] at h
      cases h
      refine ⟨_, rfl, ?_⟩
      rw [superState_data, superState_data]

theorem along_perform {c : Change} {t : TransientStatusImpl} (hc : c.Safe (t.target d c)) :
    (perform (Y := Y) c t).along HonestDB (fun _ _ => True) d := by
  obtain ⟨hcode, hstate, hasked⟩ := hc
  cases c with
  | progress p =>
      refine Prog.along_bind (along_advance ((hasked p rfl).imp_right ?_))
      rintro ⟨heq, hdone⟩
      exact ⟨heq, fun i hi => hdone _ (by simp [target, hi])⟩
  | update content =>
      refine Prog.along_bind (p := doUpdateGlobalStatus t.name content) ?_
      unfold doUpdateGlobalStatus
      rw [Prog.select_bind]
      intro d' hd
      dsimp only
      split
      · trivial
      · rename_i t' hfetch
        cases content with
        | children => trivial
        | progress p =>
            refine Prog.along_bind (along_advance ((hasked _ rfl).imp_right ?_))
            rintro ⟨heq, hdone⟩
            obtain ⟨t₀, hfetch₀, hdata⟩ := fetch_data hd hfetch
            refine ⟨heq, fun i hi => (hd.honest i).done (hdone _ ?_)⟩
            simp [target, hfetch₀, hdata, hi]
        | other => trivial
  | success => exact along_fail (by decide)
  | fail code => exact along_fail (hcode code rfl)
  | cancel => exact along_cancel t
  | state s =>
      exact Prog.along_bind (Prog.along_mono (fun _ _ _ => trivial)
        (along_changeState (hstate s rfl)))
  | checkpoint => exact along_checkpoint t
  | sync =>
      simp only [perform, Prog.select_bind]
      intro d' _
      dsimp only
      split <;> trivial

end Along

end TransientStatusImpl

/-- The records and any number of handles on them. -/
abbrev Statuses (ι : Type) :=
  Config ι TransDB (X := Empty) (fun _ => Unit) TransientStatusImpl Change Reply

abbrev Statuses.Label (ι : Type) :=
  Interleaving.Label ι TransDB (X := Empty) (fun _ => Unit) TransientStatusImpl Change Reply

end Transient

/-- Through any handles, over SQL and over transient statuses, and whatever the order of
the single writes: as long as every call is safe for the status it is made on, a status
with progress 100 has a code and is in a final state. -/
theorem truthful_of_safe (ι : Type) [DecidableEq ι] :
    (∀ (c₀ c : Statuses ι) (tr : List (Statuses.Label ι)), c₀.AtRest →
      c₀.store.vitals.Truthful → Run perform c₀ tr c →
      Calls perform (fun op _ r => op.Safe (some r.vitals)) c₀ tr →
      c.store.vitals.Truthful) ∧
    ∀ (c₀ c : Transient.Statuses ι) (tr : List (Transient.Statuses.Label ι)), c₀.AtRest →
      (∀ j, (c₀.store.heap j).vitals.Truthful) →
      Run Transient.TransientStatusImpl.perform c₀ tr c →
      Calls Transient.TransientStatusImpl.perform (fun op t d => op.Safe (t.target d op))
        c₀ tr →
      ∀ j, (c.store.heap j).vitals.Truthful := by
  constructor
  · intro c₀ c tr h₀ htruthful hrun hsafe
    have hkeep : ∀ r r', HonestRow r r' → r.vitals.Truthful → r'.vitals.Truthful :=
      fun _ _ h => h.truthful
    have hrow : HonestRow c₀.store c.store :=
      (hrun.along (R := HonestRow) (fun r => Vitals.Honest.refl r.vitals)
        (fun _ _ _ => Vitals.Honest.trans) hkeep
        (fun op l _ hr hop => along_perform_honest op l hr hop) htruthful h₀ hsafe).1
    exact hrow.truthful htruthful
  · intro c₀ c tr h₀ htruthful hrun hsafe j
    exact ((hrun.along Transient.HonestDB.refl (fun _ _ _ => Transient.HonestDB.trans)
      (fun _ _ _ _ => trivial) (fun _ _ _ _ hop =>
        Transient.TransientStatusImpl.along_perform hop) trivial h₀ hsafe).1.honest
      j).truthful (htruthful j)

attribute [local instance] neZero_two

/-- A worker reports half of its progress and then success. -/
def halfWay : List (Move (Fin 2) (X := Empty) (fun _ => Unit) Change) :=
  [.call 0 (.progress 50), .go 0, .go 0, .finish 0, .call 1 .success, .go 1, .go 1]

theorem truthful_of_safe_halfWay :
    ∃ tr c, Run perform newStatus tr c ∧ c.store.progress = 100 ∧
      c.store.vitals.Truthful := by
  have hrun : (scheduleAll perform newStatus halfWay).map
      (fun p => (p.1.filterMap fun | .call _ op => some op | _ => none, p.2.store.progress)) =
        some ([.progress 50, .success], 100) := by rfl
  obtain ⟨tr, c, hr, hf⟩ := exists_run_of_scheduleAll hrun
  simp only [Prod.mk.injEq] at hf
  refine ⟨tr, c, hr, hf.2, (truthful_of_safe (Fin 2)).1 newStatus c tr (fun i => ⟨_, rfl⟩)
    (by decide) hr ?_⟩
  intro pre i op post c₁ l htr _ _
  have hop : op ∈ [Change.progress 50, .success] := by
    rw [← hf.1, htr]
    simp
  simp only [List.mem_cons, List.not_mem_nil, or_false] at hop
  rcases hop with rfl | rfl <;> simp [Change.Safe, Change.asked]

/-- Asking for a progress of 100 is enough for a new status to look finished. -/
theorem not_truthful :
    ¬ ∀ (c : Statuses (Fin 2)) (tr : List (Statuses.Label (Fin 2))),
      Run perform newStatus tr c → c.store.vitals.Truthful := by
  intro hall
  have hrun : (scheduleAll perform newStatus
      [.call 0 (.progress 100), .go 0, .go 0]).map (fun p => p.2.store.vitals) =
        some ⟨.pending, 100, -1⟩ := by rfl
  obtain ⟨tr, c, hr, hf⟩ := exists_run_of_scheduleAll hrun
  have htruthful := hall c tr hr
  change c.store.vitals = _ at hf
  rw [hf] at htruthful
  exact absurd htruthful (by decide)

end Status

end Gearbox
