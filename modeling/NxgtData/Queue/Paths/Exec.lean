import NxgtData.Queue.Paths.Add
import NxgtData.Queue.Paths.Repair
import NxgtData.Queue.Frames

/-!
Every script is a path of moves that leaves the marks of its reply, so a run is
one too, and the board's invariant holds after every script of a run.
-/
namespace NxgtData.Queue
open Decimal Gcra

variable {m : GroupArgs} {P : NewJob → Prop} {q : Keys} {us : Nat}

/-- A group a job may be sent under. -/
def NewJob.GroupSound (j : NewJob) : Prop := groupSound (some j.group) = true

theorem guarded_leads {Q : String → JobHash → Prop} {script : Keys → Reply × Keys} {c : Call}
    (hb : Sane m q.toBoard) (error : c.marks (.error mismatch) = [])
    (leads : ∀ q : Keys, Sane m q.toBoard →
      Leads m Q q.toBoard (c.marks (script q).1) (script q).2.toBoard) :
    Leads m Q q.toBoard (c.marks (guarded m script q).1) (guarded m script q).2.toBoard := by
  unfold guarded
  split
  next =>
    rw [error]
    exact .refl _
  next q' marker =>
    have same := (groupModeCheck_toBoard marker).1
    rw [← same] at hb ⊢
    exact leads q' hb

theorem exec_leads (us : Nat) (c : Call) (sends : c.Sends P) (group : ∀ j, P j → j.GroupSound)
    (hb : Sane m q.toBoard) :
    Leads m (Writes m P) q.toBoard (c.marks (exec m us c q).1)
      (exec m us c q).2.toBoard := by
  cases c with
  | add jobs => exact guarded_leads hb rfl fun q hb => addAll_leads jobs hb sends group
  | claim lease rate tokens => exact guarded_leads hb rfl fun q hb => claim_leads us _ _ _ _ hb
  | complete => exact guarded_leads hb rfl fun q hb => complete_leads hb
  | fail => exact guarded_leads hb rfl fun q hb => fail_leads hb
  | renew lease entries => exact renew_leads entries
  | release jobs =>
      refine guarded_leads hb rfl fun q hb => ?_
      have released := releaseAll_leads (Q := Writes m P) jobs hb
      simp only [answering, release, apply_ite Keys.toBoard, Keys.wakeUp_toBoard, ite_self]
      exact released
  | cancel => exact guarded_leads hb rfl fun q _ => cancel_leads
  | retry => exact guarded_leads hb rfl fun q hb => retry_leads hb
  | remove => exact guarded_leads hb rfl fun q hb => remove_leads hb
  | pause => exact .refl _
  | resume =>
      refine guarded_leads hb rfl fun q hb => ?_
      simp only [resume, apply_ite Keys.toBoard, Keys.wakeUp_toBoard, ite_self]
      exact .refl _
  | progress => exact progress_leads hb
  | stepBegin => exact stepBegin_leads hb
  | stepCommit => exact stepCommit_leads hb
  | fire => exact guarded_leads hb rfl fun q _ => fire_leads sends
  | defer | upsert | unschedule | sync =>
      simp only [exec, answering, upsert_keeps unscheduling_toBoard,
        unschedule_keeps unscheduling_toBoard, defer_keeps unscheduling_toBoard,
        sync_keeps unscheduling_toBoard, Call.marks]
      exact .refl _

/-- Every job the calls send is one under `P`. -/
def Sends (P : NewJob → Prop) (calls : List Timed) : Prop := ∀ c ∈ calls, c.2.Sends P

theorem runFrom_leads (calls : List Timed) (sends : Sends P calls)
    (group : ∀ j, P j → j.GroupSound) (hb : Sane m q.toBoard) :
    Leads m (Writes m P) q.toBoard (history (logFrom m calls q)) (runFrom m calls q).toBoard := by
  induction calls generalizing q with
  | nil => exact .refl _
  | cons c calls ih =>
      have first := exec_leads c.1 c.2 (sends c List.mem_cons_self) group hb
      exact first.trans (ih (fun d later => sends d (List.mem_cons_of_mem _ later)) (first.sane hb))

theorem run_leads (calls : List Timed) (sends : Sends P calls)
    (group : ∀ j, P j → j.GroupSound) :
    Leads m (Writes m P) {} (history (log m calls)) (run m calls).toBoard :=
  runFrom_leads (q := .empty) calls sends group (.empty m)

theorem run_sane (calls : List Timed) (sends : Sends NewJob.GroupSound calls) :
    Sane m (run m calls).toBoard :=
  (run_leads calls sends fun _ sound => sound).sane (.empty m)

end NxgtData.Queue
