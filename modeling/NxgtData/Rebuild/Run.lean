import NxgtData.Rebuild.Server

/-!
`rebuildIndex` and the server it talks to. The next index is created by a sync, filled by the
caller, and swapped with the live one once every task on it has succeeded. A request that
fails at the client may still reach the server, at once or at any later time; other tasks of
the server take uids of their own.
-/
namespace NxgtData.Rebuild
open TaskLog
open Token (isIndexUid)

/-- Where a rebuild stopped. -/
inductive Stop where
  | creating
  | filling
  | swapping
  | unknown
  deriving DecidableEq

def Stop.text : Stop → String
  | .creating => "creating"
  | .filling => "filling"
  | .swapping => "swapping"
  | .unknown => "unknown"

def quoted (uid : Utf16) : Utf16 := Utf16.ofText "\"" ++ uid ++ Utf16.ofText "\""

/-- The message of `stopped`. -/
def message (uid nextUid : Utf16) (stop : Stop) (deleted : Bool) : Utf16 :=
  let left :=
    if deleted then quoted nextUid ++ Utf16.ofText " was deleted"
    else quoted nextUid ++
      Utf16.ofText " could not be deleted; the next rebuild deletes it first"
  let head := Utf16.ofText "Rebuild of index " ++ quoted uid
  let cause := Utf16.ofText " The cause is on \x60cause\x60."
  match stop with
  | .unknown =>
      head ++ Utf16.ofText " sent the swap with " ++ quoted nextUid ++
        Utf16.ofText " and could not wait for it: whether " ++ quoted uid ++
        Utf16.ofText " was swapped is unknown, and " ++ quoted nextUid ++
        Utf16.ofText " was left for the next rebuild to delete." ++ cause
  | stop =>
      head ++ Utf16.ofText " stopped while " ++ Utf16.ofText stop.text ++ Utf16.ofText " " ++
        quoted nextUid ++ Utf16.ofText ": " ++ left ++ Utf16.ofText ", and " ++ quoted uid ++
        Utf16.ofText " is as it was." ++ cause

/-- What the sync of the next index reports. -/
structure Sync (F : Type) where
  created : Bool := false
  primaryKeySet : Bool := false
  update : List F := []
  /-- The uids of the tasks waited for, in order. -/
  tasks : List Nat := []

structure Report (F : Type) where
  leftoverDeleted : Bool
  created : Bool
  sync : Sync F
  /-- The uid of the swap, or of the rename, then of the deletion of the previous index. -/
  tasks : List Nat

inductive Outcome (F : Type) where
  /-- A `nextUid` that is refused before any request. -/
  | invalid
  /-- A request or a task outside the stages failed, and is thrown as it is. -/
  | rejected
  /-- The error of `stopped`. -/
  | stopped (stop : Stop) (deleted : Bool)
  | resolved (report : Report F)

inductive Read where
  /-- `findIndex(client, nextUid)`, before the sync. -/
  | leftover
  /-- The same, in the sync, and again after a creation that came second. -/
  | existing
  | again
  | settings
  /-- The two lists of `settle`. -/
  | pending
  | failed
  /-- `findIndex(client, uid)`. -/
  | live

/-- The requests whose task is waited for. -/
inductive Call (F : Type) where
  | deleteLeftover
  | createIndex
  | updateIndex
  | updateSettings (update : List F)
  | swapIndexes (created : Bool)
  | deletePrevious (swap : Nat)
  | discard (stop : Stop)

inductive Phase (F : Type) where
  | read (read : Read)
  | send (call : Call F)
  | wait (call : Call F) (uid : Nat)
  /-- `fill` runs. -/
  | filling
  /-- `waitForTasks`. -/
  | settling (uids : List Nat)
  | done (outcome : Outcome F)

/-- A rebuild and what it finds. The tasks of earlier runs on the two uids have ended. -/
structure Setup (S F D : Type) where
  engine : Engine S F D
  uid : Utf16
  primaryKey : Utf16
  /-- `diffSettings(definition.settings ?? {}, live)`. -/
  diffSettings : S → List F
  /-- `options.nextUid`. -/
  nextUidGiven : Option Utf16
  indexes : Indexes S D
  past : List (Task (Kind S F D) Code)
  settled : Settled past
  /-- The uid of the server's next task. -/
  count : Nat
  known : ∀ t ∈ past, t.uid < count

structure World (S F D : Type) where
  indexes : Indexes S D
  /-- The tasks of this run. -/
  log : List (Task (Kind S F D) Code)
  count : Nat
  /-- Requests that failed at the client and may still reach the server. -/
  flight : List (Kind S F D)
  phase : Phase F
  leftoverDeleted : Bool
  sync : Sync F

inductive Act (S D : Type) where
  /-- The server runs its oldest task. -/
  | work (fault : Bool)
  | cancel (uid : Nat)
  /-- A task of someone else, on other indexes. -/
  | others
  | arrive (i : Nat)
  /-- What the client waits for is answered, or its request is accepted. -/
  | answer
  /-- It fails: the answer is lost, refused or late. -/
  | fail
  /-- `fill` enqueues a task on the next index, resolves or rejects. -/
  | enqueue (effect : Option (Index S D) → Option (Index S D))
  | resolve
  | reject

variable {S F D : Type} (s : Setup S F D)

def Setup.nextUid : Utf16 := s.nextUidGiven.getD (s.uid ++ Utf16.ofText "_next")

/-- `swapOf`. -/
def swapOf (created : Bool) : Kind S F D :=
  if created then .indexSwap s.nextUid s.uid true else .indexSwap s.uid s.nextUid false

def Call.kind : Call F → Kind S F D
  | .deleteLeftover => .indexDeletion s.nextUid
  | .createIndex => .indexCreation s.nextUid s.primaryKey
  | .updateIndex => .indexUpdate s.nextUid s.primaryKey
  | .updateSettings update => .settingsUpdate s.nextUid update
  | .swapIndexes created => swapOf s created
  | .deletePrevious _ => .indexDeletion s.nextUid
  | .discard _ => .indexDeletion s.nextUid

namespace World
variable {s} (w : World S F D)

def go (phase : Phase F) : World S F D := { w with phase }

/-- The cleanup of a rebuild that stopped. -/
def stop (stop : Stop) : World S F D := w.go (.send (.discard stop))

/-- A task the sync waited for. -/
def push (uid : Nat) : World S F D :=
  { w with sync := { w.sync with tasks := w.sync.tasks ++ [uid] } }

def enqueue (kind : Kind S F D) : World S F D :=
  { w with log := TaskLog.enqueue w.count kind w.log, count := w.count + 1 }

variable (s)

/-- `getTasks` on the next index: the newest come first. -/
def tasksOf (status : Status Code → Bool) : List (Task (Kind S F D) Code) :=
  (s.past ++ w.log).reverse.filter fun t => t.kind.indexUid = some s.nextUid ∧ status t.status

/-- `if (existing)` of the sync. -/
def onExisting : World S F D :=
  match w.indexes s.nextUid with
  | none => w.go (.read .settings)
  | some index =>
      match index.primaryKey with
      | none =>
          { w with sync := { w.sync with primaryKeySet := true }, phase := .send .updateIndex }
      | some actual => if actual = s.primaryKey then w.go (.read .settings) else w.stop .creating

/-- The rebuild goes on with the answer to a read. -/
def answered : Read → World S F D
  | .leftover =>
      match w.indexes s.nextUid with
      | some _ => { w with leftoverDeleted := true, phase := .send .deleteLeftover }
      | none => w.go (.read .existing)
  | .existing =>
      match w.indexes s.nextUid with
      | none => { w with sync := { w.sync with created := true }, phase := .send .createIndex }
      | some _ => w.onExisting s
  | .again => w.onExisting s
  | .settings =>
      match w.indexes s.nextUid with
      | none => w.stop .creating
      | some index =>
          match s.diffSettings index.settings with
          | [] => w.go .filling
          | update =>
              { w with sync := { w.sync with update }, phase := .send (.updateSettings update) }
  | .pending =>
      match (w.tasksOf s fun status => status = .enqueued).take 1000 with
      | [] => w.go (.read .failed)
      | tasks => w.go (.settling (tasks.map (·.uid)))
  | .failed =>
      match w.tasksOf s fun status => status ≠ .enqueued ∧ status ≠ .succeeded with
      | newest :: _ =>
          if newest.uid > w.sync.tasks.head?.getD 0 then w.stop .filling
          else w.go (.read .live)
      | [] => w.go (.read .live)
  | .live => w.go (.send (.swapIndexes (w.indexes s.uid).isNone))

variable {s}

def resolve (created : Bool) (tasks : List Nat) : World S F D :=
  w.go (.done (.resolved ⟨w.leftoverDeleted, created, w.sync, tasks⟩))

/-- The rebuild goes on with the task it waited for. -/
def ended (call : Call F) (task : Task (Kind S F D) Code) : World S F D :=
  match call with
  | .deleteLeftover =>
      if task.status = .succeeded then w.go (.read .existing) else w.go (.done .rejected)
  | .createIndex =>
      if task.status = .failed (some .indexAlreadyExists) then
        { w with sync := { w.sync with created := false }, phase := .read .again }
      else if task.status = .succeeded then (w.push task.uid).go (.read .settings)
      else (w.push task.uid).stop .creating
  | .updateIndex =>
      if task.status = .succeeded then (w.push task.uid).go (.read .settings)
      else (w.push task.uid).stop .creating
  | .updateSettings _ =>
      if task.status = .succeeded then (w.push task.uid).go .filling
      else (w.push task.uid).stop .creating
  | .swapIndexes created =>
      if task.status = .succeeded then
        if created then w.resolve true [task.uid] else w.go (.send (.deletePrevious task.uid))
      else w.stop .swapping
  | .deletePrevious swap =>
      if task.status = .succeeded then w.resolve false [swap, task.uid]
      else w.go (.done .rejected)
  | .discard stop =>
      w.go (.done (.stopped stop
        (task.status = .succeeded ∨ task.status = .failed (some .indexNotFound))))

/-- A request or a wait of the rebuild failed. -/
def lost : Call F → World S F D
  | .deleteLeftover | .deletePrevious _ => w.go (.done .rejected)
  | .createIndex | .updateIndex | .updateSettings _ => w.stop .creating
  | .swapIndexes _ => w.go (.done (.stopped .unknown false))
  | .discard stop => w.go (.done (.stopped stop false))

def unread : Read → World S F D
  | .leftover => w.go (.done .rejected)
  | .existing | .again | .settings => w.stop .creating
  | .pending | .failed => w.stop .filling
  | .live => w.stop .swapping

variable (s)

/-- A task has ended. -/
def hasEnded (uid : Nat) : Bool :=
  match find uid (s.past ++ w.log) with
  | some t => t.status ≠ .enqueued
  | none => false

def step (act : Act S D) : World S F D :=
  match act with
  | .work fault =>
      let ran := work (perform s.engine) fault w.log w.indexes
      { w with log := ran.1, indexes := ran.2 }
  | .cancel uid => { w with log := cancel uid w.log }
  | .others => { w with count := w.count + 1 }
  | .arrive i =>
      match w.flight[i]? with
      | some kind => { w.enqueue kind with flight := w.flight.eraseIdx i }
      | none => w
  | .answer =>
      match w.phase with
      | .read read => w.answered s read
      | .send call => (w.enqueue (call.kind s)).go (.wait call w.count)
      | .wait call uid =>
          match find uid w.log with
          | some task => if task.status = .enqueued then w else w.ended call task
          | none => w
      | .settling uids => if uids.all (w.hasEnded s) then w.go (.read .pending) else w
      | .filling | .done _ => w
  | .fail =>
      match w.phase with
      | .read read => w.unread read
      | .send call => { w with flight := w.flight ++ [call.kind s] }.lost call
      | .wait call _ => w.lost call
      | .settling _ => w.stop .filling
      | .filling | .done _ => w
  | .enqueue effect =>
      match w.phase with
      | .filling => w.enqueue (.write s.nextUid effect)
      | _ => w
  | .resolve =>
      match w.phase with
      | .filling => w.go (.read .pending)
      | _ => w
  | .reject =>
      match w.phase with
      | .filling => w.stop .filling
      | _ => w

end World

def start : World S F D where
  indexes := s.indexes
  log := []
  count := s.count
  flight := []
  phase :=
    if s.nextUid = s.uid then .done .invalid
    else if !isIndexUid s.nextUid then .done .invalid
    else .read .leftover
  leftoverDeleted := false
  sync := {}

def run (acts : List (Act S D)) : World S F D := acts.foldl (World.step s) (start s)

end NxgtData.Rebuild
