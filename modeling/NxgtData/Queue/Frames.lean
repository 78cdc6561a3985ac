import NxgtData.Queue.Script

/-!
What scripts leave alone. The scripts of schedules write three keys and nothing
else, the phases of a claim write the board and the sequence, and the other scripts
write neither the schedules nor the rate. A reading of the keys that does not look at what a part
writes is the same after it.
-/
namespace NxgtData.Queue
open Gcra

variable {m : GroupArgs} {q : Keys}

section Schedules
variable {α : Type}

/-- `f` does not look at the keys of schedules. -/
def Unscheduling (f : Keys → α) : Prop :=
  ∀ q schedules schedule schedulesDefinition,
    f { q with schedules, schedule, schedulesDefinition } = f q

variable {f : Keys → α}

theorem upsert_keeps (blind : Unscheduling f) (s : ScheduleArgs) : f (upsert s q).2 = f q := by
  unfold upsert
  split
  next => rfl
  next => exact blind q _ _ _

theorem unschedule_keeps (blind : Unscheduling f) (id : String) :
    f (unschedule id q).2 = f q := by
  unfold unschedule
  split
  next => rfl
  next => exact blind q _ _ _

theorem defer_keeps (blind : Unscheduling f) (id : String) (due untl : Nat) :
    f (defer id due untl q).2 = f q := by
  unfold defer
  split
  next => rfl
  next =>
    split
    next => rfl
    next =>
      split
      next => rfl
      next => exact blind q _ _ _

theorem sync_keeps (blind : Unscheduling f) (list : List ScheduleArgs) :
    f (sync list q).2 = f q := by
  have listed : ∀ (list : List ScheduleArgs) (q : Keys), f (list.foldl syncOne q) = f q := by
    intro list
    induction list with
    | nil => exact fun _ => rfl
    | cons s list ih =>
        refine fun q => (ih _).trans ?_
        unfold syncOne
        dsimp only
        split
        next => exact blind q _ _ _
        next => exact blind q _ _ _
  have swept : ∀ (ids listed : List String) (st : Nat × Keys),
      f (ids.foldl (sweepOne listed) st).2 = f st.2 := by
    intro ids names
    induction ids with
    | nil => exact fun _ => rfl
    | cons id ids ih =>
        refine fun st => (ih _).trans ?_
        unfold sweepOne
        dsimp only
        split
        next => rfl
        next =>
          split
          next => exact blind st.2 _ _ _
          next => exact blind st.2 _ _ _
  unfold sync
  split
  next => rfl
  next =>
    split
    next => rfl
    next => exact (swept _ _ _).trans (listed list q)

end Schedules

theorem unscheduling_toBoard : Unscheduling Keys.toBoard := fun _ _ _ _ => rfl

section Claim
variable {α : Type} {f : Keys → α} {st st' : Claiming} {now lease : Nat} {tokens : List String}
  {id g : String}

/-- `f` does not look at the board or the sequence. -/
def Unboarding (f : Keys → α) : Prop := ∀ q toBoard seq, f { q with toBoard, seq } = f q

theorem reclaimOne_keeps (blind : Unboarding f) : f (reclaimOne m now st id).q = f st.q := by
  unfold reclaimOne
  dsimp only
  split
  next => exact blind st.q _ _
  next => split <;> exact blind st.q _ _

theorem promoteOne_keeps (blind : Unboarding f) : f (promoteOne m now st id).q = f st.q := by
  unfold promoteOne
  dsimp only
  split <;> exact blind st.q _ _

theorem beginJob_keeps (blind : Unboarding f) (now lease : Nat) (tokens : List String)
    (id g : String) (st : Claiming) :
    f (beginJob m now lease tokens id g st).q = f st.q := by
  unfold beginJob
  dsimp only
  split <;> exact blind st.q _ _

/-- What each turn of a loop leaves alone, the loop does. -/
theorem foldl_keeps {turn : Claiming → String → Claiming}
    (keeps : ∀ st id, f (turn st id).q = f st.q) (ids : List String) (st : Claiming) :
    f (ids.foldl turn st).q = f st.q := by
  induction ids generalizing st with
  | nil => rfl
  | cons id ids ih => exact (ih _).trans (keeps st id)

theorem popTurn_keeps (blind : Unboarding f) {served : Option String}
    (turn : popTurn m now lease tokens st = some (served, st')) : f st'.q = f st.q := by
  unfold popTurn at turn
  split at turn
  next => cases turn
  next g k taken =>
    dsimp only at turn
    split at turn
    next id l z popped =>
      cases turn
      let b := { st.q.toBoard with groups := k }.popGroup id g z
      have begun := beginJob_keeps (m := m) blind now lease tokens id g
        { st with q := { st.q with toBoard := b } }
      exact (blind _ _ _).trans (begun.trans (blind st.q _ _))
    next =>
      cases turn
      exact blind st.q _ _

theorem popGroups_keeps (blind : Unboarding f) (n takes got : Nat) :
    f (popGroups m now lease tokens n takes got st).q = f st.q := by
  induction takes generalizing got st with
  | zero => rfl
  | succ takes ih =>
      unfold popGroups
      split
      next =>
        split
        next => rfl
        next turn => exact (ih _).trans (popTurn_keeps blind turn)
        next turn => exact (ih _).trans (popTurn_keeps blind turn)
      next => rfl

theorem claimReady_keeps (blind : Unboarding f) (now : Nat) :
    f (claimReady m now q).q = f q :=
  (foldl_keeps (fun _ _ => promoteOne_keeps blind) _ _).trans
    (foldl_keeps (fun _ _ => reclaimOne_keeps blind) _ { q })

theorem claimPop_keeps (blind : Unboarding f) (now us n lease : Nat) (tokens : List String)
    (rate : Option Rate) :
    f (claimPop m now us n lease tokens rate (claimReady m now q)).q = f q := by
  rw [← claimReady_keeps (m := m) (q := q) blind now]
  unfold claimPop
  dsimp only
  split
  next => exact popGroups_keeps blind _ _ _
  next =>
    split
    next => exact (foldl_keeps (fun st id => beginJob_keeps blind now lease tokens id "" st) _ _).trans (blind _ _ _)
    next => rfl

end Claim

section Jobs
variable {α : Type} {f : Keys → α} {now us : Nat} {id : String}

/-- `f` looks at no key that the scripts of jobs write but in a claim's charge. -/
def Unworking (f : Keys → α) : Prop :=
  ∀ q toBoard seq wake paused dedupe groupsMode,
    f { q with toBoard, seq, wake, paused, dedupe, groupsMode } = f q

theorem wakeUp_keeps (blind : Unworking f) (q : Keys) : f q.wakeUp = f q := by
  unfold Keys.wakeUp
  split
  next => exact blind q _ _ _ _ _ _
  next => rfl

theorem poke_keeps (blind : Unworking f) (q : Keys) (paused : Bool) :
    f (q.poke paused) = f q := by
  unfold Keys.poke
  split
  next => rfl
  next => exact wakeUp_keeps blind q

theorem addJob_keeps (blind : Unworking f) (now : Nat) (paused : Bool) (j : NewJob) :
    f (addJob m now paused j q).2 = f q := by
  unfold addJob
  split
  next => rfl
  next =>
    dsimp only
    split
    next =>
      simp only [apply_ite f, poke_keeps blind, ite_self]
      exact blind q _ _ _ _ _ _
    next =>
      split
      next =>
        let written : Keys := { q with toBoard := q.toBoard.hset j.id fun _ => j.hash m now }
        exact (blind (written.poke paused) _ _ _ _ _ _).trans
          ((poke_keeps blind written paused).trans (blind q _ _ _ _ _ _))
      next => exact blind q _ _ _ _ _ _

theorem debounceJob_keeps (blind : Unworking f) {paused : Bool} (j : AddJob) :
    f (debounceJob m now paused id j q) = f q := by
  have stored : ∀ q' : Keys, f q' = f q → f ((fun q : Keys =>
      { q with delayed := q.delayed.add (now + j.delayMs) id }.setDedupe now j.dedupeKey id
        j.ttlMs) q') = f q := fun q' same => (blind q' _ _ _ _ _ _).trans same
  unfold debounceJob
  refine stored _ ?_
  split
  next => exact (poke_keeps blind _ paused).trans (blind q _ _ _ _ _ _)
  next => exact blind q _ _ _ _ _ _

theorem addOne_keeps (blind : Unworking f) {paused : Bool} (j : AddJob) :
    f (addOne m now paused j q).2 = f q := by
  unfold addOne
  dsimp only
  split
  next =>
    split
    next => exact debounceJob_keeps blind j
    next => rfl
  next =>
    have added := addJob_keeps (m := m) (q := q) blind now paused j.toNewJob
    split
    next q' eq =>
      rw [eq] at added
      dsimp only
      split
      next => exact added
      next => exact (blind q' _ _ _ _ _ _).trans added
    next q' eq =>
      rw [eq] at added
      exact added

theorem addAll_keeps (blind : Unworking f) {paused : Bool} (jobs : List AddJob) :
    f (addAll m now paused jobs q).2 = f q := by
  induction jobs generalizing q with
  | nil => rfl
  | cons j jobs ih => exact ih.trans (addOne_keeps blind j)

theorem releaseAll_keeps (blind : Unworking f) (jobs : List (String × String)) :
    f (releaseAll m jobs q).2.2 = f q := by
  induction jobs generalizing q with
  | nil => rfl
  | cons job jobs ih =>
      have first : f (releaseOne m job.1 job.2 q).2.2 = f q := by
        unfold releaseOne
        dsimp only
        split
        next => exact blind q _ _ _ _ _ _
        next => rfl
      exact ih.trans first

theorem cancel_keeps (blind : Unworking f) : f (cancel m id q).2 = f q := by
  unfold cancel
  split
  next => rfl
  next =>
    dsimp only
    split
    next => exact (wakeUp_keeps blind _).trans (blind q _ _ _ _ _ _)
    next => exact blind q _ _ _ _ _ _

theorem retry_keeps (blind : Unworking f) {fresh : Bool} : f (retry m now id fresh q).2 = f q := by
  unfold retry
  dsimp only
  split
  next => rfl
  next =>
    split
    next => rfl
    next =>
      split
      next => rfl
      next =>
        simp only [apply_ite f, wakeUp_keeps blind, ite_self]
        split <;> exact blind q _ _ _ _ _ _

/-- Whether a script writes the keys of schedules. -/
def Call.schedules : Call → Bool
  | .fire .. | .defer .. | .upsert _ | .unschedule _ | .sync _ => true
  | _ => false

/-- Whether a script has a claim in it. -/
def Call.starts : Call → Bool
  | .claim .. | .complete .. | .fail .. => true
  | _ => false

theorem marked_keeps (blind : Unworking f) {q' : Keys} (marker : q.groupModeCheck m = some q') :
    f q' = f q := by
  unfold Keys.groupModeCheck at marker
  split at marker
  next =>
    split at marker
    next => cases marker
    next =>
      cases marker
      rfl
  next =>
    cases marker
    exact blind q _ _ _ _ _ _

theorem guarded_keeps (blind : Unworking f) {script : Keys → Reply × Keys}
    (keeps : ∀ q, f (script q).2 = f q) : f (guarded m script q).2 = f q := by
  unfold guarded
  split
  next => rfl
  next q' marker => exact (keeps q').trans (marked_keeps blind marker)

theorem exec_keeps (blind : Unworking f) {c : Call} (other : c.schedules = false)
    (idle : c.starts = false) : f (exec m us c q).2 = f q := by
  cases c with
  | claim | complete | fail => cases idle
  | fire | defer | upsert | unschedule | sync => cases other
  | add jobs => exact guarded_keeps blind fun q => addAll_keeps blind jobs
  | release jobs =>
      refine guarded_keeps blind fun q => ?_
      simp only [answering, release]
      split
      next => exact (wakeUp_keeps blind _).trans (releaseAll_keeps blind jobs)
      next => exact releaseAll_keeps blind jobs
  | cancel => exact guarded_keeps blind fun q => cancel_keeps blind
  | retry => exact guarded_keeps blind fun q => retry_keeps blind
  | remove => exact guarded_keeps blind fun q => blind q _ _ _ _ _ _
  | resume =>
      refine guarded_keeps blind fun q => ?_
      simp only [resume]
      split
      next => exact (wakeUp_keeps blind _).trans (blind q _ _ _ _ _ _)
      next => exact blind q _ _ _ _ _ _
  | renew | pause | progress | stepBegin | stepCommit => exact blind q _ _ _ _ _ _

end Jobs

/-- The keys of schedules. -/
def Keys.timetable (q : Keys) : ZSet × (String → Option ScheduleHash) × Members :=
  (q.schedules, q.schedule, q.schedulesDefinition)

theorem unworking_timetable : Unworking Keys.timetable := fun _ _ _ _ _ _ _ => rfl

section Timetable
variable {us lease : Nat} {id token : String} {rate : Option Rate}

theorem claim_timetable (n : Nat) (tokens : List String) :
    (claim m us n lease tokens rate q).2.timetable = q.timetable := by
  have popped := claimPop_keeps (m := m) (q := q) (f := Keys.timetable) (fun _ _ _ => rfl) (us / 1000)
    us n lease tokens rate
  have charged : ∀ k (q : Keys), (charge us rate k q).timetable = q.timetable := by
    intro k q
    unfold charge
    split
    next => rfl
    next => split <;> rfl
  have settled : ∀ retry (q : Keys), (settleWake m retry q).timetable = q.timetable := by
    intro retry q
    unfold settleWake
    split
    next => exact wakeUp_keeps unworking_timetable q
    next => rfl
  simp only [claim, settled, charged, popped]

theorem settleClaim_timetable {claimToken : String} {freed : Bool} :
    (settleClaim m us lease claimToken rate freed q).2.timetable = q.timetable := by
  unfold settleClaim
  split
  next => exact claim_timetable 1 [claimToken]
  next =>
    dsimp only
    split
    next => exact wakeUp_keeps unworking_timetable q
    next => rfl

theorem fail_timetable {error claimToken : String} {retryIn : Int} {keepFailed : Nat} :
    (fail m us id token error retryIn keepFailed lease claimToken rate q).2.timetable =
      q.timetable := by
  unfold fail
  dsimp only
  split
  next =>
    exact (wakeUp_keeps unworking_timetable _).trans
      (settleClaim_timetable (q := { q with toBoard := _ }))
  next => exact settleClaim_timetable (q := { q with toBoard := _ })

theorem exec_timetable {c : Call} (other : c.schedules = false) :
    (exec m us c q).2.timetable = q.timetable := by
  cases c with
  | claim lease rate tokens =>
      exact guarded_keeps unworking_timetable fun q => claim_timetable _ tokens
  | complete =>
      exact guarded_keeps unworking_timetable fun q =>
        settleClaim_timetable (q := { q with toBoard := _ })
  | fail => exact guarded_keeps unworking_timetable fun q => fail_timetable
  | _ => exact exec_keeps unworking_timetable other rfl

end Timetable
end NxgtData.Queue
