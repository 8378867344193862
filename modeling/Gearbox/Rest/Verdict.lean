import Gearbox.Interleaving.Watched
import Gearbox.Rest.Client
import Gearbox.Status.Completion

/-!
# The client and the status

The client polls the row of a status while any number of handles change it. The row is written in
single steps, and each poll reads it once, at any time. So what the client returns rests on what
every step keeps: as long as all calls are safe, a status with progress 100 has a code and is in a
final state, and it stays so.
-/

namespace Gearbox

namespace RestClient

open Refinement Interleaving Status

variable {ι J : Type} [DecidableEq ι] {perl : Perl J} {o : Options} {c₀ c : Statuses ι}
  {tr : List (Statuses.Label ι)} {polled : List Row} {last : Row}

/-- What the client reads of a status. The code is sent only if the progress is 100. -/
def fieldsOf (uri statusUri : String) (r : Row) : Fields where
  progress := r.progress
  code := if r.progress = 100 then r.code else 0
  uri := uri
  statusUri := statusUri

/-- All calls of the run are safe, and the status has been truthful. -/
structure SafeRun (c₀ : Statuses ι) (tr : List (Statuses.Label ι)) : Prop where
  rest : c₀.AtRest
  truthful : c₀.store.vitals.Truthful
  safe : Calls perform (fun op _ r => op.Safe (some r.vitals)) c₀ tr

/-- A row that has been read is truthful, and it is done no more than the last one. -/
theorem SafeRun.seen {seen : List Row} (h : SafeRun c₀ tr)
    (hwatched : Watched perform c₀ tr seen c) {r : Row} (hr : r ∈ seen) :
    r.vitals.Truthful ∧ (r.vitals.Done → c.store.vitals.Done) := by
  have hkeep : ∀ r r', HonestRow r r' → r.vitals.Truthful → r'.vitals.Truthful :=
    fun _ _ h => h.truthful
  obtain ⟨hbetween, -⟩ := hwatched.along (R := HonestRow)
    (fun r => Vitals.Honest.refl r.vitals) (fun _ _ _ => Vitals.Honest.trans) hkeep
    (fun op l _ hr hop => along_perform_honest op l hr hop) h.truthful h.rest h.safe
  obtain ⟨hbefore, hafter⟩ := hbetween r hr
  exact ⟨hbefore.truthful h.truthful, hafter.done⟩

/-- Over any run whose calls are all safe: the client waits as long as it has not seen a progress
of 100. When it has, the status is finished, it stays finished, and the client returns the resource
if the code is 0 and the status as an error otherwise. -/
theorem req_watched (h : SafeRun c₀ tr) (hwatched : Watched perform c₀ tr (polled ++ [last]) c)
    (doc : Row → Hash perl) {uri statusUri : String}
    (hdoc : ∀ r, (doc r).fields = fieldsOf uri statusUri r) (hauto : o.autoPoll = true)
    (method target : String) (hpolled : ∀ r ∈ polled, r.progress ≠ 100) (resource : J) :
    (last.progress ≠ 100 → ∃ s', Halts .late (fun n => req perl o n false method target)
        { answers := answersOf ((polled ++ [last]).map doc) } (.error .waiting) s') ∧
    (last.progress = 100 → last.vitals.Done ∧ c.store.vitals.Done ∧
      ∃ s', Halts .late (fun n => req perl o n false method target)
        { answers := answersOf ((polled ++ [last]).map doc) ++ [okay resource] }
        (if last.code ≠ 0 then refusal o (doc last).json
          else if method = "DELETE" then .ok .one else .ok (.json resource)) s') := by
  have hpending : ∀ rows : List Row, (∀ r ∈ rows, r.progress ≠ 100) →
      ∀ x ∈ rows.map doc, x.fields.progress ≠ 100 := by
    intro rows hrows x hx
    obtain ⟨r, hr, rfl⟩ := List.mem_map.mp hx
    rw [hdoc, fieldsOf]
    dsimp only
    exact_mod_cast hrows r hr
  constructor
  · intro hlast
    have hall : ∀ r ∈ polled ++ [last], r.progress ≠ 100 := by
      rw [List.forall_mem_append, List.forall_mem_singleton]
      exact ⟨hpolled, hlast⟩
    obtain ⟨s', hs', -⟩ := halts_req_pending hauto method target (hpending _ hall)
      (by rw [List.map_append]; exact List.append_ne_nil_of_right_ne_nil _ (List.cons_ne_nil _ _))
    exact ⟨s', hs'⟩
  · intro hlast
    obtain ⟨htruthful, hdone⟩ := h.seen hwatched
      (List.mem_append_right polled (List.mem_singleton_self last))
    have hlastDone : last.vitals.Done := htruthful.2 hlast
    refine ⟨hlastDone, hdone hlastDone, ?_⟩
    have hprogress : (doc last).fields.progress = 100 := by
      rw [hdoc, fieldsOf]
      dsimp only
      exact_mod_cast hlast
    obtain ⟨s', hs', -⟩ :=
      halts_req_done hauto method target (hpending polled hpolled) hprogress resource
    have hcode : (doc last).fields.code = last.code := by
      rw [hdoc, fieldsOf]
      exact if_pos hlast
    rw [verdict, hcode] at hs'
    rw [List.map_append]
    exact ⟨s', hs'⟩

/-- The calls of a run. -/
def callsOf (tr : List (Statuses.Label ι)) : List Change :=
  tr.filterMap fun l =>
    match l with
    | .call _ op => some op
    | _ => none

/-- The status before and after the run of `halfWay`. -/
theorem req_watched_halfWay :
    ∃ (tr : List (Statuses.Label (Fin 2))) (c : Statuses (Fin 2)),
      Watched perform newStatus tr ([newStatus.store] ++ [c.store]) c ∧
      c.store.vitals.Done ∧
      ∃ s', Halts .late (fun n => req plain {} n false "POST" "/thing")
        { answers := answersOf (([newStatus.store] ++ [c.store]).map fun r =>
            plainHash (fieldsOf "/thing/t-1" "/status/s-1" r)) ++ [okay {}] }
        (.ok (.json {})) s' := by
  have hrun : (scheduleAll perform newStatus halfWay).map
      (fun p => (callsOf p.1, p.2.store.progress, p.2.store.code)) =
        some ([.progress 50, .success], 100, 0) := by rfl
  obtain ⟨tr, c, hr, hf⟩ := exists_run_of_scheduleAll hrun
  simp only [Prod.mk.injEq] at hf
  obtain ⟨hcalls, hprogress, hcode⟩ := hf
  have hwatched : Watched perform newStatus tr ([newStatus.store] ++ [c.store]) c :=
    (Watched.nil.look.of_run hr).look
  have hsafe : SafeRun newStatus tr := by
    refine ⟨fun i => ⟨_, rfl⟩, by decide, ?_⟩
    intro pre i op post c₁ l htr _ _
    have hop : op ∈ [Change.progress 50, .success] := by
      rw [← hcalls, htr, callsOf]
      simp
    simp only [List.mem_cons, List.not_mem_nil, or_false] at hop
    rcases hop with rfl | rfl <;> simp [Change.Safe, Change.asked]
  obtain ⟨-, hdone⟩ := req_watched (o := {}) hsafe hwatched
    (fun r => plainHash (fieldsOf "/thing/t-1" "/status/s-1" r)) (fun _ => rfl) rfl "POST"
    "/thing" (by simp; decide) {}
  obtain ⟨hlast, -, s', hs'⟩ := hdone hprogress
  rw [if_neg (not_not_intro hcode), if_neg (by decide)] at hs'
  exact ⟨tr, c, hwatched, hlast, s', hs'⟩

end RestClient

end Gearbox
