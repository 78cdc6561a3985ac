import NxgtData.Queue.Add
import NxgtData.Queue.Claim

/-!
The scripts of recurring schedules: `UPSERT`, `UNSCHEDULE`, `FIRE`, `DEFER` and
`SYNC`. They parse no cron and no zone; the client computes every `next`.
-/
namespace NxgtData.Queue
open Decimal

/-- `write`: the schedule's hash replaced whole. -/
def Keys.writeSchedule (id kind spec zone data origin : String) (q : Keys) : Keys :=
  { q with schedule := Function.update q.schedule id (some
    { kind := some kind
      spec := some spec
      data := some data
      origin := some origin
      timezone := if kind = "cron" then some zone else none }) }

/-- A schedule as `UPSERT` and `SYNC` take it. -/
structure ScheduleArgs where
  id : String
  kind : String
  spec : String
  timezone : String
  data : String
  next : Nat
  deriving DecidableEq, Repr

/-- `UPSERT`; `false` for an id the definition owns. -/
def upsert (s : ScheduleArgs) (q : Keys) : Bool × Keys :=
  if (q.scheduleHash s.id).origin = some "definition" then (false, q)
  else
    let q := q.writeSchedule s.id s.kind s.spec s.timezone s.data "runtime"
    (true, { q with schedules := q.schedules.add s.next s.id })

inductive Unscheduled where
  | none
  | removed
  | definition
  deriving DecidableEq, Repr

def unschedule (id : String) (q : Keys) : Unscheduled × Keys :=
  if (q.scheduleHash id).origin = some "definition" then (.definition, q)
  else
    let had := (q.schedule id).isSome || decide (id ∈ q.schedules)
    (if had then .removed else .none,
      { q with
        schedule := Function.update q.schedule id none
        schedules := q.schedules.rem id })

/-- The error reply of `FIRE` for a `next` that is not after `due`. -/
def fireError : String := "ERR next must be a whole number of ms after due"

/-- The id of the job of one occurrence. -/
def occurrence (id : String) (due : Nat) : String := s!"schedule:{id}:{due}"

/-- The job a fire adds. -/
def occurrenceJob (id : String) (due attempts : Nat) (timeout : Int) (data : String) : NewJob :=
  { id := occurrence id due, data, priority := 0, attempts, timeoutMs := timeout }

/-- `FIRE`, past the groups check. -/
def fire (m : GroupArgs) (now : Nat) (id : String) (due next attempts : Nat) (timeout : Int)
    (q : Keys) : Except String Bool × Keys :=
  if ¬ next > due then (.error fireError, q)
  else if q.schedules.score id ≠ some due then (.ok false, q)
  else if due > now then (.ok false, q)
  else
    let f := q.scheduleHash id
    if !scheduleSound f then (.ok false, q)
    else
      let (added, q) :=
        addJob m now q.paused (occurrenceJob id due attempts timeout (f.data.getD "")) q
      (.ok added, { q with schedules := q.schedules.add next id })

def deferError : String := "ERR until must be a whole number of ms after due"

def defer (id : String) (due untl : Nat) (q : Keys) : Except String Bool × Keys :=
  if ¬ untl > due then (.error deferError, q)
  else if q.schedules.score id ≠ some due then (.ok false, q)
  else if !scheduleSound (q.scheduleHash id) then (.ok false, q)
  else (.ok true, { q with schedules := q.schedules.add untl id })

/-- Whether a listed schedule is stored as it is, with a score to keep. -/
def Keys.sameSchedule (s : ScheduleArgs) (q : Keys) : Bool :=
  let f := q.scheduleHash s.id
  f.kind = some s.kind && f.spec = some s.spec
    && f.timezone.getD "" = (if s.kind = "cron" then s.timezone else "")
    && (q.schedules.score s.id).isSome

/-- One listed schedule of `SYNC`. -/
def syncOne (q : Keys) (s : ScheduleArgs) : Keys :=
  let q := { q with schedulesDefinition := q.schedulesDefinition.add () s.id }
  let same := q.sameSchedule s
  let q := q.writeSchedule s.id s.kind s.spec s.timezone s.data "definition"
  if same then q else { q with schedules := q.schedules.add s.next s.id }

/-- One id of the definition set, in `SYNC`'s sweep; counts what it deletes. -/
def sweepOne (listed : List String) (st : Nat × Keys) (id : String) : Nat × Keys :=
  if id ∈ listed then st
  else
    let (removed, q) := st
    let q := { q with schedulesDefinition := q.schedulesDefinition.rem id }
    if (q.scheduleHash id).origin = some "definition" then
      (removed + 1,
        { q with
          schedule := Function.update q.schedule id none
          schedules := q.schedules.rem id })
    else (removed, q)

def syncTooMany : String := "ERR at most 1000 schedules per call"

def syncTooManyHeld : String := "ERR the definition set holds more than 2000 ids"

/-- `SYNC`; answers what was written and what was removed. -/
def sync (list : List ScheduleArgs) (q : Keys) : Except String (Nat × Nat) × Keys :=
  if list.length > 1000 then (.error syncTooMany, q)
  else if q.schedulesDefinition.card > 2000 then (.error syncTooManyHeld, q)
  else
    let q := list.foldl syncOne q
    let (removed, q) :=
      q.schedulesDefinition.members.foldl (sweepOne (list.map ScheduleArgs.id)) (0, q)
    (.ok (list.length, removed), q)

end NxgtData.Queue
