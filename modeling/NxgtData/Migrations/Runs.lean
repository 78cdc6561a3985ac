import Mathlib.Data.List.Induction
import NxgtData.Migrations.Plan

/-!
Runs of `migrate` and `rollback` on any machines, over one database. Each run takes the
lock, reads the records, plans, and goes through its plan a transaction at a time. The
lock is a lease: it may lapse while its run goes on, which finds it out by a renewal alone.
-/
namespace NxgtData.Migrations

variable {α : Type} [DecidableEq α]

/-- The migrations of the code, none of them named twice: one list that only grows at
its end, of which each run has the beginning it was released with. -/
abbrev Listed (α : Type) [DecidableEq α] := { l : List (Migration α) // (l.map (·.id)).Nodup }

inductive Kind (α : Type) where
  | migrate (to_ : Option α)
  | rollback (to_ : Option α)
deriving DecidableEq

inductive Direction where
  | up | down
deriving DecidableEq

def Kind.direction : Kind α → Direction
  | .migrate _ => .up
  | .rollback _ => .down

def Kind.plan (kind : Kind α) (migrations : List (Migration α)) (records : List α) :
    Except (PlanError α) (List (Migration α)) :=
  match kind with
  | .migrate to_ => toApply migrations records to_
  | .rollback to_ => toRevert migrations records to_

inductive Phase (α : Type) where
  /-- About to take the lock. -/
  | locking
  /-- About to read the records. -/
  | reading
  /-- Before `checkLock`, with what is left of the plan. -/
  | between (todo : List (Migration α))
  /-- About to start an attempt of the step's transaction. -/
  | starting (migration : Migration α) (todo : List (Migration α))
  /-- In a transaction, which reads the records as they were when it started. -/
  | running (migration : Migration α) (todo : List (Migration α)) (snapshot : List α)
  /-- Over; a run that was not stopped lets go of its lock. -/
  | finished (releases : Bool)
deriving DecidableEq

structure Run (α : Type) where
  kind : Kind α
  /-- How many migrations its list has. -/
  listed : Nat
  lockTtlMs : Nat
  phase : Phase α := .locking
  lost : Bool := false
deriving DecidableEq

/-- The run holds the lock or believes that it does, and renews it. -/
def Run.works (r : Run α) : Bool :=
  match r.phase with
  | .reading | .between _ | .starting _ _ | .running _ _ _ => true
  | .locking | .finished _ => false

structure Lock where
  holder : Nat
  expiresAt : Nat
deriving DecidableEq

structure World (α : Type) where
  now : Nat := 0
  lock : Option Lock := none
  /-- The ids of the records. -/
  records : List α := []
  runs : List (Run α) := []
  /-- The steps whose transactions were committed. -/
  effects : List (α × Direction) := []

/-- How a transaction ends that ran a step and wrote its record, or removed it. -/
inductive Attempt (α : Type) where
  | committed (records : List α)
  /-- `insertOne` found the record there. -/
  | duplicate
  /-- The record was written since the transaction started: it is aborted and retried. -/
  | conflict
deriving DecidableEq

/-- `insertOne({ _id })` in a transaction. -/
def writeRecord (id : α) (snapshot records : List α) : Attempt α :=
  if id ∈ snapshot then .duplicate
  else if id ∈ records then .conflict
  else .committed (records ++ [id])

/-- `deleteOne({ _id })` in a transaction, which may match nothing. -/
def removeRecord (id : α) (snapshot records : List α) : Attempt α :=
  if id ∉ snapshot then .committed records
  else if id ∉ records then .conflict
  else .committed (records.filter (· ≠ id))

/-- The bookkeeping of a step. -/
def bookkeeping (direction : Direction) (id : α) (snapshot records : List α) : Attempt α :=
  match direction with
  | .up => writeRecord id snapshot records
  | .down => removeRecord id snapshot records

/-- What happens next; the number is that of a run. -/
inductive Act (α : Type) where
  | start (kind : Kind α) (listed lockTtlMs : Nat)
  | tick (ms : Nat)
  /-- It tries to take the lock, and may not hear that it did. -/
  | take (i : Nat) (heard : Bool)
  | read (i : Nat)
  | check (i : Nat)
  | begin_ (i : Nat)
  /-- The step is done and its transaction commits, which the run may not hear. -/
  | commit (i : Nat) (heard : Bool)
  /-- The transaction is aborted, and the driver retries it. -/
  | abort (i : Nat)
  | fail (i : Nat)
  | renew (i : Nat)
  | release (i : Nat)
  /-- The process stops. -/
  | stop (i : Nat)

namespace World

/-- Run `i` moves to a phase. -/
def goto (w : World α) (i : Nat) (r : Run α) (phase : Phase α) : World α :=
  { w with runs := w.runs.set i { r with phase } }

/-- `take`: the insert, or else the update of a lapsed lock. -/
def take (w : World α) (i : Nat) (r : Run α) (heard : Bool) : World α :=
  if w.lock.all (·.expiresAt ≤ w.now) then
    { w with lock := some ⟨i, w.now + r.lockTtlMs⟩ }.goto i r
      (if heard then .reading else .finished false)
  else w.goto i r (.finished false)

/-- The run reads the records and plans. -/
def read (migrations : List (Migration α)) (w : World α) (i : Nat) (r : Run α) : World α :=
  match r.kind.plan (migrations.take r.listed) w.records with
  | .error _ => w.goto i r (.finished true)
  | .ok plan => w.goto i r (.between plan)

/-- `checkLock`, before the next step. -/
def check (w : World α) (i : Nat) (r : Run α) : World α :=
  match r.phase with
  | .between [] => w.goto i r (.finished true)
  | .between (m :: todo) =>
      if r.lost then w.goto i r (.finished true) else w.goto i r (.starting m todo)
  | _ => w

def commit (w : World α) (i : Nat) (r : Run α) (heard : Bool) : World α :=
  match r.phase with
  | .running m todo snapshot =>
      match bookkeeping r.kind.direction m.id snapshot w.records with
      | .duplicate => w.goto i r (.finished true)
      | .conflict => w.goto i r (.starting m todo)
      | .committed records =>
          { w with records, effects := w.effects ++ [(m.id, r.kind.direction)] }.goto i r
            (if heard then .between todo else .finished true)
  | _ => w

/-- A renewal reaches the server. -/
def renew (w : World α) (i : Nat) (r : Run α) : World α :=
  match w.lock with
  | some lock =>
      if lock.holder = i then { w with lock := some ⟨i, w.now + r.lockTtlMs⟩ }
      else { w with runs := w.runs.set i { r with lost := true } }
  | none => { w with runs := w.runs.set i { r with lost := true } }

def release (w : World α) (i : Nat) : World α :=
  { w with lock := w.lock.filter (·.holder ≠ i) }

/-- What a run does, if it is where it can. -/
def act (migrations : List (Migration α)) (w : World α) (i : Nat) (r : Run α) :
    Act α → World α
  | .take _ heard => if r.phase = .locking then w.take i r heard else w
  | .read _ => if r.phase = .reading then w.read migrations i r else w
  | .check _ => w.check i r
  | .begin_ _ =>
      match r.phase with
      | .starting m todo => w.goto i r (.running m todo w.records)
      | _ => w
  | .commit _ heard => w.commit i r heard
  | .abort _ =>
      match r.phase with
      | .running m todo _ => w.goto i r (.starting m todo)
      | _ => w
  | .fail _ => if r.works then w.goto i r (.finished true) else w
  | .renew _ => if r.works then w.renew i r else w
  | .release _ => if r.phase = .finished true then w.release i else w
  | .stop _ => w.goto i r (.finished false)
  | .start _ _ _ | .tick _ => w

end World

/-- The run an act is of. -/
def Act.run : Act α → Option Nat
  | .start _ _ _ | .tick _ => none
  | .take i _ | .read i | .check i | .begin_ i | .commit i _ | .abort i | .fail i | .renew i
  | .release i | .stop i => some i

def World.step (migrations : List (Migration α)) (w : World α) (a : Act α) : World α :=
  match a with
  | .start kind listed lockTtlMs => { w with runs := w.runs ++ [{ kind, listed, lockTtlMs }] }
  | .tick ms => { w with now := w.now + ms }
  | _ =>
      match a.run.bind fun i => w.runs[i]?.map (i, ·) with
      | some (i, r) => w.act migrations i r a
      | none => w

omit [DecidableEq α] in
theorem run_of_found {w : World α} {a : Act α} {i : Nat} {r : Run α}
    (found : (a.run.bind fun i => w.runs[i]?.map (i, ·)) = some (i, r)) :
    a.run = some i ∧ w.runs[i]? = some r := by
  obtain ⟨j, is, at_⟩ := Option.bind_eq_some_iff.mp found
  obtain ⟨r', there, eq⟩ := Option.map_eq_some_iff.mp at_
  cases eq
  exact ⟨is, there⟩

/-- The world after acts, from a database with no migration recorded. -/
def run (migrations : List (Migration α)) (acts : List (Act α)) : World α :=
  acts.foldl (·.step migrations) {}

end NxgtData.Migrations
