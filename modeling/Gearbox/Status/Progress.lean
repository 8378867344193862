import Gearbox.Interleaving.Along
import Gearbox.Status.Concurrency
import Gearbox.Status.History

/-!
# Progress over SQL

`Status::progress(p)` compares `p` with the cached progress and leaves it to the
statement not to lower the column; `end` writes the cached progress unconditionally, but
it has just loaded it. `Change` has the calls that touch the state, the code or the
progress of a status, `perform` are their programs over SQL, and the lemmas below say of
each of them what has to be checked so that it moves the row along a preorder.

For the column of the progress this preorder is its order, as long as no call asks for
more than 100 (`progress_mono`).
-/

namespace Gearbox

namespace Status

open Interleaving

/-- What a request for `do_update_global_status_v1` asks for. -/
inductive Content where
  | children
  | progress (p : ℤ)
  | other
  deriving DecidableEq, Repr

/-- The calls that change a status. -/
inductive Change where
  | progress (p : ℕ)
  | update (content : Content)
  | success
  | fail (code : ℤ)
  | cancel
  | state (s : State)
  | checkpoint
  | sync
  deriving DecidableEq, Repr

/-- How a call ended; `badRequest` and `notFound` are `ERR_BAD_REQUEST` and
`ERR_NOT_FOUND`. -/
inductive Reply where
  | returned
  | answered (b : Bool)
  | threw (e : Thrown)
  | badRequest (what : String)
  | notFound (what : String)
  deriving DecidableEq

def Reply.ofExcept : Except Thrown Unit → Reply
  | .ok () => .returned
  | .error e => .threw e

section Programs

variable {X : Type} {Y : X → Type}

/-- `Status::progress(unsigned)` over `SQLStatusImpl` -/
def Handle.advance (h : Handle) (p : ℕ) : Prog Row Y Handle := do
  let h ← h.lazyLoad
  if h.progress < p then h.setProgress p else return h

/-- `WorkerGearbox::do_update_global_status_v1`, through a handle of its own. The
children are rows of another table, and the progress, an `int64_t`, is passed on as an
`unsigned int`. -/
def doUpdateGlobalStatus (content : Content) : Prog Row Y Reply := do
  match content with
  | .children => return .returned
  | .progress p =>
      let _ ← Handle.fetched.advance (p % 2 ^ 32).toNat
      return .returned
  | .other =>
      return .badRequest "unexpected content for do_update_global_status_v1"

/-- The program of one call over SQL. -/
def perform : Change → Handle → Prog Row Y (Reply × Handle)
  | .progress p, h => do
      let h ← h.advance p
      return (.returned, h)
  | .update content, h => do
      let r ← doUpdateGlobalStatus content
      return (r, h)
  | .success, h => do
      let (r, h) ← h.success
      return (.ofExcept r, h)
  | .fail code, h => do
      let (r, h) ← h.fail code
      return (.ofExcept r, h)
  | .cancel, h => do
      let (r, h) ← h.cancel
      return (.ofExcept r, h)
  | .state s, h => do
      let (b, h) ← h.setState s
      return (.answered b, h)
  | .checkpoint, h => do
      let (r, h) ← h.checkpoint
      return (.ofExcept r, h)
  | .sync, h => do
      let h ← h.sync
      return (.returned, h)

/-- The progress that a call asks for, if it does. -/
def Change.asked : Change → Option ℕ
  | .progress p => some p
  | .update (.progress p) => some (p % 2 ^ 32).toNat
  | _ => none

end Programs

section Along

variable {X : Type} {Y : X → Type} {R : Row → Row → Prop} {I : Row → Prop} {s₀ : Row}

theorem along_reallyLoad (hkeep : ∀ r r', R r r' → I r → I r') (hI : I s₀) (h : Handle) :
    (h.reallyLoad (Y := Y)).along R (fun h' r => I r ∧ h' = h.assign r) s₀ :=
  fun r hr => ⟨hkeep s₀ r hr hI, rfl⟩

theorem along_lazyLoad (hkeep : ∀ r r', R r r' → I r → I r') (hI : I s₀) (h : Handle) :
    (h.lazyLoad (Y := Y)).along R (fun _ r => I r) s₀ := by
  unfold Handle.lazyLoad
  split
  · exact Prog.along_mono (fun _ _ h => h.1) (along_reallyLoad hkeep hI h)
  · exact hI

theorem assign_progress_code (h : Handle) (r : Row) :
    (h.assign r).progress = r.progress ∧ (h.assign r).code = r.code := by
  unfold Handle.assign Handle.superState
  dsimp only
  split <;> exact ⟨rfl, rfl⟩

theorem superState_progress_code (h : Handle) (s : State) :
    (h.superState s).2.progress = h.progress ∧ (h.superState s).2.code = h.code := by
  unfold Handle.superState
  split <;> exact ⟨rfl, rfl⟩

/-- `end` has just loaded the row `r` when it writes to the row `r'`. -/
theorem along_endWith (hkeep : ∀ r r', R r r' → I r → I r') (hI : I s₀) (h : Handle)
    (code : ℤ) (s : State)
    (htx : ∀ (h' : Handle) r r', I r → I r' → h'.progress = r.progress →
      h'.code = r.code → h'.state = s → R r' ((h'.complete code).endTx s r')) :
    (h.endWith (Y := Y) code s).along R (fun _ _ => True) s₀ := by
  have hload : ∀ h : Handle, (h.reallyLoad (Y := Y)).along R (fun h' r => I r ∧
      h'.progress = r.progress ∧ h'.code = r.code) s₀ := by
    intro h
    refine Prog.along_mono ?_ (along_reallyLoad hkeep hI h)
    rintro h' r ⟨hr, rfl⟩
    exact ⟨hr, assign_progress_code h r⟩
  refine Prog.along_bind (Prog.along_mono (Q := fun h' r => I r ∧ h'.progress = r.progress ∧
    h'.code = r.code) ?_ ?_)
  · rintro h' r ⟨hr, hp, hc⟩
    have hfields := superState_progress_code h' s
    cases hv : (h'.superState s).1 with
    | false => simp [hv, Prog.along]
    | true =>
        simp only [hv, Bool.not_true, Bool.false_eq_true, if_false]
        exact fun r' hr' => ⟨htx _ r r' hr (hkeep r r' hr' hr) (hfields.1.trans hp)
          (hfields.2.trans hc) (superState_state hv), trivial⟩
  · split
    · exact hload h
    · exact hload _

theorem along_cancel (hkeep : ∀ r r', R r r' → I r → I r') (hI : I s₀) (h : Handle)
    (htx : ∀ code (h' : Handle) r r', code ≠ -1 → I r → I r' → h'.progress = r.progress →
      h'.code = r.code → h'.state = .cancelled →
        R r' ((h'.complete code).endTx .cancelled r')) :
    (h.cancel (Y := Y)).along R (fun _ _ => True) s₀ := by
  refine Prog.along_bind (Prog.along_bind (Prog.along_mono ?_ (along_lazyLoad hkeep hI h)))
  intro h₁ r₁ hr₁
  dsimp only [Prog.pure_eq, Prog.along]
  split
  · refine Prog.along_bind (Prog.along_bind (Prog.along_mono ?_
      (along_lazyLoad hkeep hr₁ h₁)))
    intro h₂ r₂ hr₂
    refine along_endWith hkeep hr₂ h₂ _ _ fun h' r r' => htx _ h' r r' ?_
    split
    · decide
    · assumption
  · trivial

/-- When the change of the state is confirmed, the row has been in this state. -/
theorem along_setState (hkeep : ∀ r r', R r r' → I r → I r') (hI : I s₀) (h : Handle)
    (s : State) (htx : ∀ (h' : Handle) r, I r → h'.state = s → R r (h'.stateTx s r)) :
    (h.setState (Y := Y) s).along R (fun b r => I r ∧ (b.1 = true → r.state = s)) s₀ := by
  refine Prog.along_bind (Prog.along_mono (Q := fun _ r => I r) ?_ ?_)
  · intro h' r hr
    cases hv : (h'.superState s).1 with
    | false => simpa [hv, Prog.along] using hr
    | true =>
        simp only [hv, Bool.not_true, Bool.false_eq_true, if_false]
        intro r' hr'
        have hstate := superState_state hv
        have hmove := htx _ r' (hkeep r r' hr' hr) hstate
        refine ⟨hmove, hkeep _ _ hmove (hkeep r r' hr' hr), fun hb => ?_⟩
        change validStateTransition r'.state s = true at hb
        simp [Handle.stateTx, hb, hstate]
  · split
    · exact Prog.along_mono (fun _ _ h => h.1) (along_reallyLoad hkeep hI h)
    · exact hI

theorem along_setProgress {J : Row → Prop} (hkeep : ∀ r r', R r r' → J r → J r') (hJ : J s₀)
    (h : Handle) (p : ℕ)
    (htx : ∀ r, J r → r.progress < p → R r { r with progress := p })
    (hrefl : ∀ r, R r r) :
    (h.setProgress (Y := Y) p).along R (fun _ _ => True) s₀ := by
  intro r hr
  refine ⟨?_, trivial⟩
  dsimp only
  split
  · rename_i hlt
    exact htx r (hkeep s₀ r hr hJ) hlt
  · exact hrefl r

theorem along_advance {J : Row → Prop} (hkeep : ∀ r r', R r r' → J r → J r') (hJ : J s₀)
    (h : Handle) (p : ℕ)
    (htx : ∀ r, J r → r.progress < p → R r { r with progress := p })
    (hrefl : ∀ r, R r r) :
    (h.advance (Y := Y) p).along R (fun _ _ => True) s₀ := by
  refine Prog.along_bind (Prog.along_mono ?_ (along_lazyLoad hkeep hJ h))
  intro h' r hr
  split
  · exact along_setProgress hkeep hr h' p htx hrefl
  · trivial

/-- `checkpoint` writes the code after the state and the progress after the code: `J` is
what is known once the row has been stopped, and `K` once it has the code as well. -/
theorem along_checkpoint {J K : Row → Prop} (hI : ∀ r r', R r r' → I r → I r')
    (hJ : ∀ r r', R r r' → J r → J r') (hK : ∀ r r', R r r' → K r → K r') (h₀ : I s₀)
    (h : Handle)
    (hstate : ∀ (h' : Handle) r, I r → h'.state = .stopped → R r (h'.stateTx .stopped r))
    (hstopped : ∀ r, I r → r.state = .stopped → J r)
    (hcode : ∀ r, J r → R r { r with code := errGone })
    (hgone : ∀ r, J r → r.code = errGone → K r)
    (hprogress : ∀ r, K r → r.progress < 100 → R r { r with progress := 100 })
    (hrefl : ∀ r, R r r) :
    (h.checkpoint (Y := Y)).along R (fun _ _ => True) s₀ := by
  refine Prog.along_bind (Prog.along_mono ?_ (along_reallyLoad hI h₀ _))
  rintro h₁ r₁ ⟨hr₁, -⟩
  refine Prog.along_bind (Prog.along_bind (Prog.along_mono ?_ (along_lazyLoad hI hr₁ h₁)))
  intro h₂ r₂ hr₂
  have hstop : (h₂.setState (Y := Y) .stopped >>= fun b =>
      if b.1 = true then do
        let h ← b.2.setCode errGone
        let h ← h.setProgress 100
        return (.error .workerStop, h)
      else
        return (.error .workerStop, b.2)).along R
        (fun (_ : Except Thrown Unit × Handle) _ => True) r₂ := by
    refine Prog.along_bind (Prog.along_mono ?_ (along_setState hI hr₂ h₂ .stopped hstate))
    rintro ⟨b, h₃⟩ r₃ ⟨hr₃, hb⟩
    split
    · rename_i htrue
      refine fun r₄ hr₄ => ?_
      have hJ₄ := hJ _ _ hr₄ (hstopped r₃ hr₃ (hb htrue))
      have hmove := hcode r₄ hJ₄
      refine ⟨hmove, ?_⟩
      have hK₄ := hgone { r₄ with code := errGone } (hJ _ _ hmove hJ₄) rfl
      exact Prog.along_bind (p := Handle.setProgress _ 100) (Prog.along_mono
        (fun _ _ _ => trivial) (along_setProgress hK hK₄ _ 100 hprogress hrefl))
    · trivial
  simp only [Prog.pure_eq, Prog.along]
  split
  iterate 4 exact hstop
  trivial

/-- What has to be checked of the transactions for all calls to move the row along `R`:
`I` is kept throughout, `J` once the row has been stopped and `K` once it has a code, and
the calls use the codes and the states given. -/
structure Discipline (R : Row → Row → Prop) (I J K : Row → Prop) (codes : ℤ → Prop)
    (states : State → Prop) : Prop where
  refl : ∀ r, R r r
  keep : ∀ r r', R r r' → (I r → I r') ∧ (J r → J r') ∧ (K r → K r')
  real : ∀ code, code ≠ -1 → codes code
  ending : ∀ code s (h : Handle) r r', codes code → s = .completed ∨ s = .cancelled →
    I r → I r' → h.progress = r.progress → h.code = r.code → h.state = s →
      R r' ((h.complete code).endTx s r')
  state : ∀ s (h : Handle) r, states s → I r → h.state = s → R r (h.stateTx s r)
  stopped : states .stopped ∧ ∀ r, I r → r.state = .stopped → J r
  code : ∀ r, J r → R r { r with code := errGone }
  gone : ∀ r, J r → r.code = errGone → K r
  progress : ∀ r, K r → r.progress < 100 → R r { r with progress := 100 }

/-- The call uses the codes and the states given, and if it asks for a progress then the
row `r` and all later ones may be moved there. -/
def Change.Admitted (R : Row → Row → Prop) (codes : ℤ → Prop) (states : State → Prop)
    (c : Change) (r : Row) : Prop :=
  (∀ code, c = .fail code → codes code) ∧ (∀ s, c = .state s → states s) ∧
    ∀ p, c.asked = some p → ∀ r', R r r' → r'.progress < p → R r' { r' with progress := p }

theorem Discipline.along_advance {J K : Row → Prop} {codes : ℤ → Prop}
    {states : State → Prop} (d : Discipline R I J K codes states)
    (htrans : ∀ r₁ r₂ r₃, R r₁ r₂ → R r₂ r₃ → R r₁ r₃) (h : Handle) {p : ℕ}
    (hp : ∀ r', R s₀ r' → r'.progress < p → R r' { r' with progress := p }) :
    (h.advance (Y := Y) p).along R (fun _ _ => True) s₀ :=
  Status.along_advance (J := R s₀) (fun _ _ h h' => htrans _ _ _ h' h) (d.refl s₀) h p hp
    d.refl

theorem Discipline.along_perform {J K : Row → Prop} {codes : ℤ → Prop}
    {states : State → Prop} (d : Discipline R I J K codes states)
    (htrans : ∀ r₁ r₂ r₃, R r₁ r₂ → R r₂ r₃ → R r₁ r₃) (c : Change) (h : Handle)
    (hI : I s₀) (hc : c.Admitted R codes states s₀) :
    (perform (Y := Y) c h).along R (fun _ _ => True) s₀ := by
  have hkeep := fun r r' h => (d.keep r r' h).1
  obtain ⟨hcodes, hstates, hasked⟩ := hc
  cases c with
  | progress p =>
      exact Prog.along_bind (d.along_advance htrans h (hasked p rfl))
  | update content =>
      cases content with
      | children => trivial
      | progress p =>
          exact Prog.along_bind (Prog.along_bind
            (d.along_advance htrans .fetched (hasked _ rfl)))
      | other => trivial
  | success =>
      exact Prog.along_bind (along_endWith hkeep hI h _ _ fun h' r r' =>
        d.ending _ _ h' r r' (d.real 0 (by decide)) (.inl rfl))
  | fail code =>
      exact Prog.along_bind (along_endWith hkeep hI h _ _ fun h' r r' =>
        d.ending _ _ h' r r' (hcodes code rfl) (.inl rfl))
  | cancel =>
      exact Prog.along_bind (along_cancel hkeep hI h fun code h' r r' hcode =>
        d.ending _ _ h' r r' (d.real code hcode) (.inr rfl))
  | state s =>
      exact Prog.along_bind (Prog.along_mono (fun _ _ _ => trivial)
        (along_setState hkeep hI h s fun h' r => d.state s h' r (hstates s rfl)))
  | checkpoint =>
      exact Prog.along_bind (along_checkpoint hkeep (fun r r' h => (d.keep r r' h).2.1)
        (fun r r' h => (d.keep r r' h).2.2) hI h
        (fun h' r => d.state _ h' r d.stopped.1) d.stopped.2 d.code d.gone d.progress d.refl)
  | sync =>
      exact Prog.along_bind (Prog.along_mono (fun _ _ _ => trivial)
        (along_reallyLoad hkeep hI _))

end Along

/-- One row and any number of handles on it. -/
abbrev Statuses (ι : Type) :=
  Config ι Row (X := Empty) (fun _ => Unit) Handle Change Reply

abbrev Statuses.Label (ι : Type) :=
  Interleaving.Label ι Row (X := Empty) (fun _ => Unit) Handle Change Reply

/-- The progress is at most 100, or it is the value `top` beyond that it had before. -/
def Topped (top : ℕ) (r : Row) : Prop :=
  if top ≤ 100 then r.progress ≤ 100 else r.progress = top

/-- The progress rises, and not beyond 100. -/
def Rises (top : ℕ) (r r' : Row) : Prop :=
  (Topped top r → Topped top r') ∧ r.progress ≤ r'.progress

theorem rises_refl (top : ℕ) (r : Row) : Rises top r r := ⟨id, Nat.le_refl _⟩

theorem rises_trans (top : ℕ) (r₁ r₂ r₃ : Row) (h : Rises top r₁ r₂) (h' : Rises top r₂ r₃) :
    Rises top r₁ r₃ :=
  ⟨h'.1 ∘ h.1, Nat.le_trans h.2 h'.2⟩

/-- Only the progress of a row matters. -/
theorem rises_of_eq {top : ℕ} {r r' : Row} (h : r'.progress = r.progress) : Rises top r r' := by
  unfold Rises Topped
  rw [h]
  exact ⟨id, Nat.le_refl _⟩

theorem rises_to {top p : ℕ} (hp : p ≤ 100) {r : Row} (hr : r.progress < p) :
    Rises top r { r with progress := p } := by
  refine ⟨fun h => ?_, Nat.le_of_lt hr⟩
  unfold Topped at h ⊢
  by_cases htop : top ≤ 100
  · rw [if_pos htop]
    exact hp
  · rw [if_neg htop] at h
    omega

/-- What `end` writes is the highest value there is. -/
theorem rises_endTx {top : ℕ} {h : Handle} {r r' : Row} {code : ℤ} {s : State}
    (hr : Topped top r) (hr' : Topped top r') (hp : h.progress = r.progress) :
    Rises top r' ((h.complete code).endTx s r') := by
  unfold Handle.endTx
  split
  · have hcomplete : (h.complete code).progress =
        if r.progress < 100 then 100 else r.progress := by
      unfold Handle.complete
      rw [hp]
      split
      · rfl
      · exact hp
    unfold Rises Topped at *
    dsimp only
    rw [hcomplete]
    by_cases htop : top ≤ 100
    · rw [if_pos htop] at hr hr' ⊢
      have hval : (if r.progress < 100 then 100 else r.progress) = 100 := by
        split <;> omega
      rw [hval, if_pos htop]
      exact ⟨fun _ => Nat.le_refl _, hr'⟩
    · rw [if_neg htop] at hr hr' ⊢
      rw [if_neg htop, if_neg (by omega)]
      omega
  · exact rises_refl top r'

theorem rises_stateTx (top : ℕ) (h : Handle) (s : State) (r : Row) :
    Rises top r (h.stateTx s r) := by
  unfold Handle.stateTx
  split
  · exact rises_of_eq rfl
  · exact rises_refl top r

theorem discipline_rises (top : ℕ) :
    Discipline (Rises top) (Topped top) (fun _ => True) (fun _ => True) (fun _ => True)
      (fun _ => True) where
  refl := rises_refl top
  keep _ _ h := ⟨h.1, id, id⟩
  real _ _ := trivial
  ending _ _ _ _ _ _ _ hr hr' hp _ _ := rises_endTx hr hr' hp
  state s h r _ _ _ := rises_stateTx top h s r
  stopped := ⟨trivial, fun _ _ _ => trivial⟩
  code _ _ := rises_of_eq rfl
  gone _ _ _ := trivial
  progress _ _ hr := rises_to (Nat.le_refl 100) hr

/-- Through any number of handles on one row, whatever they have cached, and in every
interleaving of calls that ask for a progress of at most 100, the persisted progress
never goes back. -/
theorem progress_mono {ι : Type} [DecidableEq ι] {c₀ c c' : Statuses ι}
    {tr tr' : List (Statuses.Label ι)} (h₀ : c₀.AtRest) (h : Run perform c₀ tr c)
    (h' : Run perform c tr' c')
    (hp : ∀ i op p, .call i op ∈ tr ++ tr' → op.asked = some p → p ≤ 100) :
    c.store.progress ≤ c'.store.progress := by
  have hbody : ∀ (op : Change) (l : Handle) (r : Row), Topped c₀.store.progress r →
      (∀ p, op.asked = some p → p ≤ 100) →
      (perform (Y := fun _ : Empty => Unit) op l).along (Rises c₀.store.progress)
        (fun _ _ => True) r := by
    intro op l r hr hasked
    refine (discipline_rises c₀.store.progress).along_perform (rises_trans _) op l hr
      ⟨fun _ _ => trivial, fun _ _ => trivial, ?_⟩
    intro p hp r' _ hlt
    exact rises_to (hasked p hp) hlt
  have htopped : Topped c₀.store.progress c₀.store := by
    unfold Topped
    split
    · assumption
    · rfl
  induction h' with
  | nil => exact Nat.le_refl _
  | @snoc tr' c₁ c₂ l hr hs ih =>
      have hpre := ih fun i op p hmem => hp i op p (by
        rw [← List.append_assoc]
        exact List.mem_append_left _ hmem)
      refine Nat.le_trans hpre (Run.along_step (D := fun op _ _ => ∀ p, op.asked = some p →
        p ≤ 100) (rises_refl _) (rises_trans _) (fun _ _ h => h.1) hbody htopped h₀
        (h.append hr) ?_ hs).2
      intro pre i op post c₁ l htr _ _ p hasked
      refine hp i op p ?_ hasked
      rw [← List.append_assoc, htr]
      simp

attribute [local instance] neZero_two

/-- Two handles load the new row, one of them advances it to 60, and the other one to 30
from its stale cache. -/
def staleProgress : List (Move (Fin 2) (X := Empty) (fun _ => Unit) Change) :=
  [.call 0 .sync, .go 0, .finish 0, .call 1 .sync, .go 1, .finish 1,
   .call 0 (.progress 60), .go 0, .finish 0, .call 1 (.progress 30), .go 1, .finish 1]

def newStatus : Statuses (Fin 2) where
  store := freshDatabase.store
  client _ := .idle .fetched

theorem progress_mono_stale :
    ∃ tr c, Run perform newStatus tr c ∧ c.store.progress = 60 ∧
      newStatus.store.progress ≤ c.store.progress := by
  have hrun : (scheduleAll perform newStatus staleProgress).map
      (fun p => (p.1.filterMap fun | .call _ op => some op | _ => none, p.2.store.progress)) =
        some ([.sync, .sync, .progress 60, .progress 30], 60) := by rfl
  obtain ⟨tr, c, hr, hf⟩ := exists_run_of_scheduleAll hrun
  simp only [Prod.mk.injEq] at hf
  refine ⟨tr, c, hr, hf.2, progress_mono (fun i => ⟨_, rfl⟩) .nil hr ?_⟩
  intro i op p hmem hasked
  have hop : op ∈ [Change.sync, .sync, .progress 60, .progress 30] := by
    rw [← hf.1]
    exact List.mem_filterMap.2 ⟨_, hmem, rfl⟩
  simp only [List.mem_cons, List.not_mem_nil, or_false] at hop
  rcases hop with rfl | rfl | rfl | rfl <;> simp [Change.asked] at hasked <;> omega

end Status

end Gearbox
