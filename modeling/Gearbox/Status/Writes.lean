import Gearbox.Status.Sql

/-!
# What the operations write

Every operation checks a transition twice, on the cached state and again inside the
transaction, and writes the cached state. Apart from its reads it is a few transactions,
each of which leaves the state column alone or moves it, along a valid transition, to
the one state that the operation asks for. `Moves s` is that relation between the row
before and after, and the lemmas below say it of every operation, whatever the handle
has cached.
-/

namespace Gearbox

namespace Status

open Interleaving

/-- The state column stays, or it makes a valid transition to `s`. -/
def Moves (s : State) (pre post : Row) : Prop :=
  post.state = pre.state ∨
    (validStateTransition pre.state s = true ∧ post.state = s)

theorem superState_state {h : Handle} {s : State}
    (hv : (h.superState s).1 = true) : (h.superState s).2.state = s := by
  unfold Handle.superState at hv ⊢
  split at hv
  · rename_i hvalid
    simp [hvalid]
  · cases hv

theorem complete_state (h : Handle) (code : ℤ) :
    (h.complete code).state = h.state := by
  unfold Handle.complete
  split <;> rfl

section Writes

variable {X : Type} {Y : X → Type} {R : Row → Row → Prop}

theorem within_reallyLoad (h : Handle) : (h.reallyLoad (Y := Y)).Within R :=
  fun _ => trivial

theorem within_lazyLoad (h : Handle) : (h.lazyLoad (Y := Y)).Within R := by
  unfold Handle.lazyLoad
  split
  · exact within_reallyLoad h
  · trivial

theorem within_getState (R : Row → Row → Prop) (h : Handle) : (h.getState (Y := Y)).Within R :=
  Prog.within_bind (within_lazyLoad h) fun _ => trivial

theorem within_select (R : Row → Row → Prop) : (Prog.select : Prog Row Y Row).Within R :=
  fun _ => trivial

theorem moves_stateTx {h : Handle} {s : State} (hh : h.state = s) (r : Row) :
    Moves s r (h.stateTx s r) := by
  unfold Handle.stateTx
  split
  · rename_i hv
    exact .inr ⟨hv, hh⟩
  · exact .inl rfl

theorem moves_endTx {h : Handle} {s : State} (hh : h.state = s) (r : Row) :
    Moves s r (h.endTx s r) := by
  unfold Handle.endTx
  split
  · rename_i hv
    exact .inr ⟨hv, hh⟩
  · exact .inl rfl

theorem within_setState (h : Handle) (s : State) :
    (h.setState (Y := Y) s).Within (Moves s) := by
  refine Prog.within_bind ?_ fun h' => ?_
  · split
    · exact within_reallyLoad h
    · trivial
  · cases hv : (h'.superState s).1 with
    | false => simp [hv, Prog.Within]
    | true =>
        simp only [hv, Bool.not_true, Bool.false_eq_true, if_false]
        exact fun r => ⟨moves_stateTx (superState_state hv) r, trivial⟩

theorem within_endWith (h : Handle) (code : ℤ) (s : State) :
    (h.endWith (Y := Y) code s).Within (Moves s) := by
  refine Prog.within_bind ?_ fun h' => ?_
  · split
    · exact within_reallyLoad h
    · exact within_reallyLoad _
  · cases hv : (h'.superState s).1 with
    | false => simp [hv, Prog.Within]
    | true =>
        simp only [hv, Bool.not_true, Bool.false_eq_true, if_false]
        refine fun r => ⟨moves_endTx ?_ r, trivial⟩
        rw [complete_state, superState_state hv]

theorem within_cancel (h : Handle) :
    (h.cancel (Y := Y)).Within (Moves .cancelled) := by
  refine Prog.within_bind (within_getState _ h) fun p => ?_
  dsimp only
  split
  · exact Prog.within_bind (Prog.within_bind (within_lazyLoad _) fun _ => trivial)
      fun _ => within_endWith _ _ _
  · trivial

theorem within_setYtime (h : Handle) (t : ℤ) (s : State) :
    (h.setYtime (Y := Y) t).Within (Moves s) :=
  fun _ => ⟨.inl rfl, trivial⟩

theorem within_setCode (h : Handle) (code : ℤ) (s : State) :
    (h.setCode (Y := Y) code).Within (Moves s) :=
  fun _ => ⟨.inl rfl, trivial⟩

theorem within_setProgress (h : Handle) (p : ℕ) (s : State) :
    (h.setProgress (Y := Y) p).Within (Moves s) := by
  refine fun r => ⟨.inl ?_, trivial⟩
  dsimp only
  split <;> rfl

theorem within_checkpoint (h : Handle) :
    (h.checkpoint (Y := Y)).Within (Moves .stopped) := by
  refine Prog.within_bind (within_reallyLoad _) fun h' => ?_
  refine Prog.within_bind (within_getState _ h') fun p => ?_
  have hstop : ∀ q : Bool × Handle → Prog Row Y (Except Thrown Unit × Handle),
      (∀ b, (q b).Within (Moves .stopped)) →
        (p.2.setState .stopped >>= q).Within (Moves .stopped) :=
    fun q hq => Prog.within_bind (within_setState p.2 .stopped) hq
  dsimp only
  split
  iterate 4
    refine hstop _ fun b => ?_
    split
    · exact Prog.within_bind (within_setCode _ _ _) fun _ =>
        Prog.within_bind (within_setProgress _ _ _) fun _ => trivial
    · trivial
  trivial

end Writes

end Status

end Gearbox
