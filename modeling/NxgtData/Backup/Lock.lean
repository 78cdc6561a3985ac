import Mathlib.Logic.Function.Basic
import Mathlib.Data.Nat.Basic

/-!
A definition's lock in one repository: a file for each writer, written before the
writer looks for the others'. Every call of `acquireLock` is a writer of its own. Time
passes as the monotonic clocks count it, and each writer reads a wall clock of its
own; a write lands at any time after it began, and so does a delete.
-/
namespace NxgtData.Backup.Lock

inductive Operation where
  | create
  | prune
  deriving DecidableEq, Repr

/-- What `writeLock` writes, less the id, which is its key. -/
structure LockRecord where
  operation : Operation
  /-- By the holder's wall clock. -/
  expiresAt : Int
  deriving DecidableEq, Repr

/-- What is under a lock's key, as `readLock` reads it. -/
inductive File where
  | lock (record : LockRecord)
  | unreadable
  deriving DecidableEq, Repr

structure Put where
  record : LockRecord
  landed : Bool := false
  deriving DecidableEq, Repr

/-- Where a writer stands. -/
inductive Phase where
  | absent
  /-- Its record is made, by a reading at `since`. -/
  | begun (record : LockRecord) (since : Nat)
  /-- It awaits `writeLock`. -/
  | writing
  | placed
  /-- `refuseOthers`, with the reading it began at and the keys it has yet to read. -/
  | looking (now : Int) (due : List Nat)
  /-- `stillHeld` awaits the delete of a lock that it found stale. -/
  | forgetting (now : Int) (due : List Nat) (stale : Nat)
  /-- `acquireLock` threw. -/
  | thrown
  /-- `acquireLock` resolved. -/
  | held
  /-- `release` awaits the renewal. -/
  | releasing
  | released
  deriving DecidableEq, Repr

/-- It has begun its write, or gone further. -/
def Phase.wrote : Phase → Bool
  | .absent | .begun _ _ => false
  | _ => true

/-- `acquireLock` resolved, whatever came after. -/
def Phase.acquired : Phase → Bool
  | .held | .releasing | .released => true
  | _ => false

structure Writer where
  operation : Operation := .create
  phase : Phase := .absent
  file : Option File := none
  /-- A write of the file that is there has resolved. -/
  sure : Bool := false
  /-- Deletes of its file that have yet to take effect. -/
  deletes : Nat := 0
  /-- The write it awaits. -/
  put : Option Put := none
  /-- What the writes that rejected before they landed had to write. -/
  late : List LockRecord := []
  deadline : Nat := 0
  lost : Bool := false
  /-- `next`, of the renewal under way. -/
  renewal : Option Nat := none

structure World where
  now : Nat := 0
  count : Nat := 0
  writer : Nat → Writer := fun _ => {}

inductive Act where
  | tick (time : Nat)
  | acquire (operation : Operation)
  /-- The write begins: the first one, or a renewal's. -/
  | write (i : Nat)
  | land (i : Nat)
  /-- The write leaves a part of the file for a moment. -/
  | tear (i : Nat)
  | resolve (i : Nat)
  | reject (i : Nat)
  /-- A write that rejected lands after all. -/
  | late (i k : Nat)
  /-- A delete takes effect. -/
  | erase (i : Nat)
  | list (i : Nat) (shown : List Nat)
  | look (i j : Nat)
  | forgot (i : Nat)
  | listed (i : Nat)
  /-- The listing or a read of it throws. -/
  | fail (i : Nat)
  | renew (i : Nat)
  | check (i : Nat)
  | release (i : Nat)
  | unlock (i : Nat)
  deriving DecidableEq, Repr

namespace Writer

/-- What `held()` answers. -/
def held (now : Nat) (x : Writer) : Bool := !x.lost && decide (now < x.deadline)

/-- `held()`: once out, it stays out. -/
def check (now : Nat) (x : Writer) : Writer := if x.held now then x else { x with lost := true }

/-- What `acquireLock` does before it throws. -/
def refuse (x : Writer) : Writer := { x with phase := .thrown, deletes := x.deletes + 1 }

def write (lease slack now : Nat) (wall : Int) (x : Writer) : Writer :=
  match x.phase with
  | .begun record since =>
      if now ≤ since + slack then
        { x with phase := .writing, deadline := now + lease, put := some { record } }
      else x
  | .held | .releasing =>
      if x.renewal.isSome ∧ x.put = none then
        { x with put := some { record := { operation := x.operation, expiresAt := wall + lease } } }
      else x
  | _ => x

def land (x : Writer) : Writer :=
  match x.put with
  | some ⟨record, false⟩ => { x with file := some (.lock record), put := some ⟨record, true⟩ }
  | _ => x

def tear (x : Writer) : Writer :=
  match x.put with
  | some ⟨_, false⟩ => { x with file := some .unreadable }
  | _ => x

/-- A renewal's `then`. -/
def renewed (now : Nat) (x : Writer) : Writer :=
  match x.renewal with
  | none => x
  | some next =>
      if x.held now then { x with renewal := none, deadline := max x.deadline next }
      else { x with renewal := none, lost := true }

/-- The write is awaited no more; what a listing must show, it shows from now on. -/
def resolved (x : Writer) : Writer := { x with put := none, sure := x.sure || x.file.isSome }

def resolve (now : Nat) (x : Writer) : Writer :=
  match x.put with
  | some ⟨_, true⟩ =>
      if x.phase = .writing then { x.resolved with phase := .placed } else x.resolved.renewed now
  | _ => x

/-- What had not landed yet may still land. -/
def rejected (put : Put) (x : Writer) : Writer :=
  { x with put := none, late := if put.landed then x.late else put.record :: x.late }

def reject (x : Writer) : Writer :=
  match x.put with
  | none => x
  | some put =>
      if x.phase = .writing then (x.rejected put).refuse
      else { x.rejected put with renewal := none }

def landLate (k : Nat) (x : Writer) : Writer :=
  match x.late[k]? with
  | none => x
  | some record => { x with file := some (.lock record), late := x.late.eraseIdx k }

def erase (x : Writer) : Writer :=
  if x.deletes = 0 then x
  else { x with file := none, sure := false, deletes := x.deletes - 1 }

/-- The timer's callback. -/
def renew (lease now : Nat) (x : Writer) : Writer :=
  if x.phase = .held ∧ x.renewal = none then
    if x.held now then { x with renewal := some (now + lease) } else { x with lost := true }
  else x

def fail (x : Writer) : Writer :=
  match x.phase with
  | .placed | .looking _ _ | .forgetting _ _ _ => x.refuse
  | _ => x

end Writer

namespace World

def set (w : World) (i : Nat) (x : Writer) : World :=
  { w with writer := Function.update w.writer i x }

variable (lease slack : Nat) (wall : Nat → Nat → Int)

def acquire (operation : Operation) (w : World) : World :=
  let expiresAt := wall w.count w.now + lease
  let phase := .begun { operation, expiresAt } w.now
  { w.set w.count { operation, phase } with count := w.count + 1 }

/-- The listing shows every key whose write resolved, and maybe others. -/
def list (i : Nat) (shown : List Nat) (w : World) : World :=
  if (w.writer i).phase = .placed ∧ ∀ j < w.count, (w.writer j).sure = true → j ∈ shown then
    w.set i { w.writer i with phase := .looking (wall i w.now) (shown.filter (· ≠ i)) }
  else w

/-- `stillHeld`, of one key of the listing. -/
def look (i j : Nat) (w : World) : World :=
  match (w.writer i).phase with
  | .looking now due =>
      if j ∈ due then
        match (w.writer j).file with
        | none => w.set i { w.writer i with phase := .looking now (due.erase j) }
        | some .unreadable => w.set i (w.writer i).refuse
        | some (.lock record) =>
            if record.expiresAt + lease ≥ now then w.set i (w.writer i).refuse
            else
              (w.set j { w.writer j with deletes := (w.writer j).deletes + 1 }).set i
                { w.writer i with phase := .forgetting now due j }
      else w
  | _ => w

/-- One act. An act that cannot happen changes nothing. -/
def step (a : Act) (w : World) : World :=
  match a with
  | .tick time => { w with now := w.now + time }
  | .acquire operation => w.acquire lease wall operation
  | .write i => w.set i ((w.writer i).write lease slack w.now (wall i w.now))
  | .land i => w.set i (w.writer i).land
  | .tear i => w.set i (w.writer i).tear
  | .resolve i => w.set i ((w.writer i).resolve w.now)
  | .reject i => w.set i (w.writer i).reject
  | .late i k => w.set i ((w.writer i).landLate k)
  | .erase i => w.set i (w.writer i).erase
  | .list i shown => w.list wall i shown
  | .look i j => w.look lease i j
  | .forgot i =>
      match (w.writer i).phase with
      | .forgetting now due stale =>
          w.set i { w.writer i with phase := .looking now (due.erase stale) }
      | _ => w
  | .listed i =>
      match (w.writer i).phase with
      | .looking _ [] => w.set i { w.writer i with phase := .held }
      | _ => w
  | .fail i => w.set i (w.writer i).fail
  | .renew i => w.set i ((w.writer i).renew lease w.now)
  | .check i =>
      if (w.writer i).phase.acquired then w.set i ((w.writer i).check w.now) else w
  | .release i =>
      if (w.writer i).phase = .held then w.set i { w.writer i with phase := .releasing } else w
  | .unlock i =>
      if (w.writer i).phase = .releasing ∧ (w.writer i).renewal = none then
        w.set i { w.writer i with phase := .released, deletes := (w.writer i).deletes + 1 }
      else w

/-- The world after acts, on a repository without locks. -/
def run (acts : List Act) : World := acts.foldl (fun w a => w.step lease slack wall a) {}

/-- `acquireLock` resolved, and `held()` is true. -/
def holds (w : World) (i : Nat) : Bool :=
  (w.writer i).phase.acquired && (w.writer i).held w.now

end World
end NxgtData.Backup.Lock
