import NxgtData.Lib.Machine
import NxgtData.Queue.Settle
import NxgtData.Queue.Schedule

/-!
The queue as a machine: a call is one script with its arguments, at a reading of
the server's clock in microseconds, and its reply is what the script answers.
Ten scripts check the groups marker before they write; the others do not.
-/
namespace NxgtData.Queue
open Gcra

inductive Call where
  | add (jobs : List AddJob)
  | claim (lease : Nat) (rate : Option Rate) (tokens : List String)
  | complete (id token : String) (keepAge keepCount : Int) (lease : Nat)
      (claimToken result : String) (rate : Option Rate)
  | fail (id token error : String) (retryIn : Int) (keepFailed lease : Nat)
      (claimToken : String) (rate : Option Rate)
  | renew (lease : Nat) (entries : List (String × String))
  | release (jobs : List (String × String))
  | cancel (id : String)
  | retry (id : String) (fresh : Bool)
  | remove (id : String)
  | pause
  | resume
  | progress (id token value : String)
  | stepBegin (id token name : String) (lease : Nat)
  | stepCommit (id token name json : String)
  | fire (id : String) (due next attempts : Nat) (timeout : Int)
  | defer (id : String) (due untl : Nat)
  | upsert (schedule : ScheduleArgs)
  | unschedule (id : String)
  | sync (schedules : List ScheduleArgs)

inductive Reply where
  | error (text : String)
  | added (jobs : List AddReply)
  | claimed (claim : ClaimReply)
  | completed (settled : Bool) (claim : ClaimReply)
  | failed (settled final : Bool) (claim : ClaimReply)
  | lost (ids : List String)
  | released (ids : List String)
  | answer (yes : Bool)
  | removed (what : Removed)
  | begun (step : StepBegin)
  | unscheduled (what : Unscheduled)
  | synced (written removed : Nat)
  deriving DecidableEq, Repr

/-- `rate_of`: a `per` of 0 is no rate. -/
def rateOf (rate : Option Rate) : Option Rate := rate.filter fun r => r.per ≠ 0

/-- A script behind the groups marker check. -/
def guarded (m : GroupArgs) (script : Keys → Reply × Keys) (q : Keys) : Reply × Keys :=
  match q.groupModeCheck m with
  | none => (.error mismatch, q)
  | some q => script q

/-- A script that reads and writes the board alone. -/
def onBoard {α : Type} (reply : α → Reply) (script : Board → α × Board) (q : Keys) :
    Reply × Keys :=
  let (a, b) := script q.toBoard
  (reply a, { q with toBoard := b })

/-- A script's own reply as a reply of the queue. -/
def answering {α : Type} (reply : α → Reply) (r : α × Keys) : Reply × Keys := (reply r.1, r.2)

def orError {α : Type} (reply : α → Reply) : Except String α → Reply
  | .ok a => reply a
  | .error text => .error text

def exec (m : GroupArgs) (us : Nat) : Call → Keys → Reply × Keys
  | .add jobs => guarded m fun q => answering .added (add m (us / 1000) jobs q)
  | .claim lease rate tokens => guarded m fun q =>
      answering .claimed (claim m us tokens.length lease tokens (rateOf rate) q)
  | .complete id token keepAge keepCount lease claimToken result rate => guarded m fun q =>
      answering (fun (settled, claim) => .completed settled claim)
        (complete m us id token keepAge keepCount lease claimToken result (rateOf rate) q)
  | .fail id token error retryIn keepFailed lease claimToken rate => guarded m fun q =>
      answering (fun (settled, final, claim) => .failed settled final claim)
        (fail m us id token error retryIn keepFailed lease claimToken (rateOf rate) q)
  | .renew lease entries => onBoard .lost (renew (us / 1000) lease entries)
  | .release jobs => guarded m fun q => answering .released (release m jobs q)
  | .cancel id => guarded m fun q => answering .answer (cancel m id q)
  | .retry id fresh => guarded m fun q => answering .answer (retry m (us / 1000) id fresh q)
  | .remove id => guarded m (onBoard .removed (remove m id))
  | .pause => fun q => (.answer true, pause q)
  | .resume => guarded m fun q => (.answer true, resume m q)
  | .progress id token value => onBoard .answer (progress id token value)
  | .stepBegin id token name lease => onBoard .begun (stepBegin (us / 1000) id token name lease)
  | .stepCommit id token name json => onBoard .answer (stepCommit (us / 1000) id token name json)
  | .fire id due next attempts timeout => guarded m fun q =>
      answering (orError .answer) (fire m (us / 1000) id due next attempts timeout q)
  | .defer id due untl => fun q => answering (orError .answer) (defer id due untl q)
  | .upsert s => fun q => answering .answer (upsert s q)
  | .unschedule id => fun q => answering .unscheduled (unschedule id q)
  | .sync list => fun q =>
      answering (orError fun (written, removed) => .synced written removed) (sync list q)

/-- A call at a reading of the server's clock. -/
abbrev Timed := Nat × Call

def step (m : GroupArgs) (c : Timed) (q : Keys) : Reply × Keys := exec m c.1 c.2 q

/-- The queue after a list of calls, from `q`. -/
abbrev runFrom (m : GroupArgs) (calls : List Timed) (q : Keys) : Keys := after (step m) calls q

/-- The calls with their replies. -/
abbrev logFrom (m : GroupArgs) (calls : List Timed) (q : Keys) : List (Timed × Reply) :=
  served (step m) calls q

/-- The queue after a list of calls, from the empty queue. -/
abbrev run (m : GroupArgs) (calls : List Timed) : Keys := runFrom m calls .empty

abbrev log (m : GroupArgs) (calls : List Timed) : List (Timed × Reply) := logFrom m calls .empty

/-- Every script but a schedule's leaves the board through its own body: the
marker check writes no board key. -/
theorem groupModeCheck_toBoard {m : GroupArgs} {q q' : Keys} (h : q.groupModeCheck m = some q') :
    q'.toBoard = q.toBoard ∧ q'.wake = q.wake ∧ q'.paused = q.paused := by
  unfold Keys.groupModeCheck at h
  split at h
  · split at h
    · cases h
    · cases h; exact ⟨rfl, rfl, rfl⟩
  · cases h; exact ⟨rfl, rfl, rfl⟩

end NxgtData.Queue
