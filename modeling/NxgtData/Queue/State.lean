import Mathlib.Logic.Function.Basic
import Mathlib.Data.String.Basic
import NxgtData.Lib.SortedSet
import NxgtData.Lib.Decimal
import NxgtData.Rate.Gcra

/-!
The keys of one queue, as its scripts see them, and the Redis commands on them.
A job hash keeps the stored texts, so the trust check reads digits and bytes;
`step` holds the fields `step:<name>`. `events` lists what was published on the
queue's channel, oldest first. `Board` is the part that says where a job is.
-/
namespace NxgtData.Queue
open Decimal

abbrev ZSet := SortedSet Nat String

/-- A Redis set: a sorted set whose scores say nothing. -/
abbrev Members := SortedSet Unit String

inductive JobState where
  | waiting
  | delayed
  | active
  | completed
  | failed
  deriving DecidableEq, Repr

structure JobHash where
  data : Option String := none
  priority : Option String := none
  attempt : Option String := none
  attempts : Option String := none
  state : Option JobState := none
  added : Option String := none
  runAt : Option String := none
  timeout : Option String := none
  group : Option String := none
  token : Option String := none
  error : Option String := none
  finished : Option String := none
  retried : Option String := none
  progress : Option String := none
  result : Option String := none
  step : String → Option String := fun _ => none

/-- What the scripts publish on `events`; an empty `result` is left out of the
message, and only a running job's cancel carries a token. -/
inductive Event where
  | completed (id result : String)
  | failed (id error : String)
  | canceled (id : String) (token : Option String)
  deriving DecidableEq, Repr

def Event.id : Event → String
  | .completed id _ | .failed id _ | .canceled id _ => id

/-- The group keys: `group:<g>:ready`, `group:<g>:active`, the list
`groups:ready` and the set `groups:queued`. -/
structure GroupKeys where
  ready : String → ZSet := fun _ => ∅
  active : String → Option Nat := fun _ => none
  list : List String := []
  queued : Members := ∅

@[ext] structure Board where
  job : String → Option JobHash := fun _ => none
  delayed : ZSet := ∅
  ready : ZSet := ∅
  active : ZSet := ∅
  completed : ZSet := ∅
  failed : ZSet := ∅
  groups : GroupKeys := {}
  events : List Event := []

structure ScheduleHash where
  kind : Option String := none
  spec : Option String := none
  timezone : Option String := none
  data : Option String := none
  origin : Option String := none
  deriving DecidableEq, Repr

/-- A key written with `PX`: its value and the last ms it is there. -/
structure Expiring where
  value : String
  expires : Nat
  deriving DecidableEq, Repr

structure Keys extends Board where
  seq : Nat := 0
  /-- The length of the list `wake`, whose entries are all `1`. -/
  wake : Nat := 0
  paused : Bool := false
  rate : Option Gcra.Stored := none
  dedupe : String → Option Expiring := fun _ => none
  groupsMode : Option String := none
  schedules : ZSet := ∅
  schedule : String → Option ScheduleHash := fun _ => none
  schedulesDefinition : Members := ∅

/-- A queue none of whose keys exists. -/
def Keys.empty : Keys := {}

/-- The three group arguments of a script, less the key prefix. -/
structure GroupArgs where
  grouped : Bool
  concurrency : Nat
  deriving DecidableEq, Repr

/-- The error reply `ERR groups mismatch` of `groupModeCheck`. -/
def mismatch : String := "ERR groups mismatch"

/-- `MODE`: `'0'` for an ungrouped queue, `'1:<concurrency>'` otherwise. -/
def GroupArgs.mode (m : GroupArgs) : String :=
  if m.grouped then "1:" ++ toString m.concurrency else "0"

namespace Board

/-- `HMGET` over every field: a missing hash answers nil for each. -/
def hmget (id : String) (b : Board) : JobHash := (b.job id).getD {}

/-- `HSET`: a missing hash is created. -/
def hset (id : String) (f : JobHash → JobHash) (b : Board) : Board :=
  { b with job := Function.update b.job id (some (f (b.hmget id))) }

/-- `HDEL`: a missing hash stays missing. -/
def hdel (id : String) (f : JobHash → JobHash) (b : Board) : Board :=
  { b with job := Function.update b.job id ((b.job id).map f) }

def del (id : String) (b : Board) : Board :=
  { b with job := Function.update b.job id none }

def publish (e : Event) (b : Board) : Board := { b with events := b.events ++ [e] }

def stateOf (b : Board) (id : String) : Option JobState := (b.job id).bind JobHash.state

/-- The zset a state names. -/
def place (b : Board) : JobState → ZSet
  | .waiting => b.ready
  | .delayed => b.delayed
  | .active => b.active
  | .completed => b.completed
  | .failed => b.failed

end Board

/-! The wake list: `wake` and `is_head` of `WAKE_FN`. -/

namespace Keys

def wakeUp (q : Keys) : Keys := if q.wake = 0 then { q with wake := q.wake + 1 } else q

def poke (paused : Bool) (q : Keys) : Keys := if paused then q else q.wakeUp

/-- Whether a job added to `delayed` at `runAt` becomes its first. -/
def isHead (delayed : ZSet) (runAt : Nat) : Bool :=
  match delayed.first with
  | none => true
  | some (score, _) => runAt < score

@[simp] theorem wakeUp_toBoard (q : Keys) : q.wakeUp.toBoard = q.toBoard := by
  unfold wakeUp; split <;> rfl

@[simp] theorem poke_toBoard (p : Bool) (q : Keys) : (q.poke p).toBoard = q.toBoard := by
  unfold poke; split <;> simp

end Keys
end NxgtData.Queue
