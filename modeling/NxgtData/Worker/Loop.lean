import NxgtData.Queue.Claim

/-!
A worker's loop and its slots, as the synchronous code between two awaits runs
them. The code runs to its end before anything else does, but it calls the user's:
the listeners of `announce` and of `active`, the schema, a handler up to its first
await. Each such call is a point where the thread stands until it returns, and
where `close` may be called, as it may be anywhere else.
-/
namespace NxgtData.Worker
open Queue

/-- A job that a reply handed to the worker, by its place among all it was handed. -/
structure Handed where
  place : Nat
  job : ClaimedJob
  deriving DecidableEq, Repr

/-- Where `runSlot` calls the user's code while it starts a job. -/
inductive Point where
  /-- `decodeData`: the schema reads the stored data. -/
  | decoding
  /-- `emit('active')`. -/
  | active
  /-- The handler, up to its first await. -/
  | handling
  deriving DecidableEq, Repr

/-- The code on the thread. `slot` is the slot's number, `none` for the loop, whose
reply starts a new slot for each of its jobs. -/
inductive Thread where
  | free
  /-- `announce`, of a reply with these jobs. -/
  | announcing (slot : Option Nat) (jobs : List Handed)
  /-- The start of `job`, before those of the jobs after it in the reply. -/
  | starting (point : Point) (slot : Option Nat) (job : Handed) (rest : List Handed)
  deriving DecidableEq, Repr

inductive Slot where
  /-- Its code is on the thread. -/
  | turning
  /-- Its handler was called, and `raceAbort` waits. -/
  | running (job : Handed)
  /-- The run was aborted and settles nothing. -/
  | aborted
  /-- A `COMPLETE` or a `FAIL` is in flight, and whether it claims. -/
  | settling (claim : Bool)
  /-- `claimAfterAbort`'s `CLAIM` is in flight. -/
  | claiming
  /-- `fireDue` of a reply with these jobs. -/
  | firing (jobs : List Handed)
  /-- `giveBack`'s `RELEASE` is in flight. -/
  | releasing
  /-- `runSlot` is done, and the slot is still among `context.slots`. -/
  | ended
  | freed
  deriving DecidableEq, Repr

inductive Loop where
  /-- It waits for a free slot, its `RELEASE`, its round of schedules, work or a
  backoff, and then goes to its top. -/
  | resting
  /-- `syncSchedules`, with this many slots free. -/
  | syncing (free : Nat)
  | claiming (free : Nat)
  | ended
  deriving DecidableEq, Repr

structure World where
  isOpen : Bool := true
  loop : Loop := .resting
  slots : List Slot := []
  thread : Thread := .free
  /-- How many jobs it was handed. -/
  count : Nat := 0
  deriving DecidableEq, Repr

/-- What happens to the jobs, and the close. -/
inductive Entry where
  | handed (jobs : List Handed)
  | called (job : Handed)
  /-- `failAttempt`, for data the schema refuses. -/
  | failed (job : Handed)
  /-- One `RELEASE` for `jobs`, with the ids and tokens it is passed. -/
  | released (jobs : List Handed) (passed : List (String × String))
  | closed
  deriving DecidableEq, Repr

/-- What makes the worker go on. A reply comes whenever it comes, and so does all
else that is awaited. -/
inductive Act where
  | close
  /-- The user's code returns to the thread. -/
  | next
  /-- The loop reaches its top. -/
  | turn
  | synced
  | claimed (reply : ClaimReply)
  | refused
  /-- The run of a slot ends with a settle: its handler returned or threw, or the
  attempt timed out. -/
  | settle (slot : Nat)
  /-- The run is aborted: canceled, lost or closed. -/
  | abort (slot : Nat)
  | claimAfterAbort (slot : Nat)
  | slotReply (slot : Nat) (reply : ClaimReply)
  | slotRefused (slot : Nat)
  | fired (slot : Nat)
  | givenBack (slot : Nat)
  | slotFreed (slot : Nat)
  deriving DecidableEq, Repr

/-- The jobs of a reply, by their places from `count` on. -/
def hand (count : Nat) : List ClaimedJob → List Handed
  | [] => []
  | job :: jobs => ⟨count, job⟩ :: hand (count + 1) jobs

/-- The `RELEASE` of `jobs`: each under its own token; none for none. -/
def giveBack (jobs : List Handed) : Option Entry :=
  if jobs = [] then none else some (.released jobs (jobs.map fun h => (h.job.id, h.job.token)))

/-- The start of the jobs that are left of a reply of the loop. -/
def startNext : List Handed → Thread
  | [] => .free
  | job :: rest => .starting .decoding none job rest

namespace World

/-- `context.slots.size`. -/
def size (w : World) : Nat := w.slots.countP (· ≠ .freed)

/-- The slot goes on as `s`; a new one joins `context.slots`. -/
def put (slot : Option Nat) (s : Slot) (w : World) : World :=
  match slot with
  | none => { w with slots := w.slots ++ [s] }
  | some i => { w with slots := w.slots.set i s }

/-- The code on the thread from here on. -/
def enter (thread : Thread) (w : World) : World := { w with thread }

/-- `runSlot` of the next job of a reply, or the end of its loop. -/
def takeNext (i : Nat) (jobs : List Handed) (w : World) : World :=
  match jobs with
  | [] => w.put (some i) .ended
  | job :: _ => (w.put (some i) .turning).enter (.starting .decoding (some i) job [])

/-- How many jobs the claim of a slot asks for, when one is in flight. A reply has
no more (`resume_slotReply`). -/
def asked (w : World) (i : Nat) : Option Nat :=
  match w.slots[i]? with
  | some (.settling claim) => some claim.toNat
  | some .claiming => some 1
  | _ => none

/-- The user's code returns, and the thread goes on to where it next calls it.
`accepts` is whether the schema takes a job's data. -/
def next (accepts : ClaimedJob → Bool) (w : World) : Option Entry × World :=
  match w.thread with
  | .free => (none, w)
  | .announcing none jobs =>
      -- The flag is read once for all the jobs of the reply.
      if w.isOpen then (none, w.enter (startNext jobs))
      else (giveBack jobs, w.enter .free)
  | .announcing (some i) jobs => (none, (w.put (some i) (.firing jobs)).enter .free)
  | .starting .decoding slot h rest =>
      if accepts h.job then (none, w.enter (.starting .active slot h rest))
      else (some (.failed h), (w.put slot (.settling w.isOpen)).enter (startNext rest))
  | .starting .active slot h rest => (some (.called h), w.enter (.starting .handling slot h rest))
  | .starting .handling slot h rest => (none, (w.put slot (.running h)).enter (startNext rest))

/-- The code that awaited a reply has it, and announces what it says of other jobs. -/
def receive (slot : Option Nat) (reply : ClaimReply) (w : World) : Option Entry × World :=
  let jobs := hand w.count reply.jobs
  (some (.handed jobs),
    { w.enter (.announcing slot jobs) with count := w.count + reply.jobs.length })

/-- An act while no code of the worker runs. -/
def resume (concurrency : Nat) (w : World) : Act → Option Entry × World
  | .turn =>
      if w.loop = .resting then
        if !w.isOpen then (none, { w with loop := .ended })
        else if concurrency - w.size = 0 then (none, w)
        else (none, { w with loop := .syncing (concurrency - w.size) })
      else (none, w)
  | .synced =>
      match w.loop with
      | .syncing free =>
          if w.isOpen then (none, { w with loop := .claiming free })
          else (none, { w with loop := .ended })
      | _ => (none, w)
  | .claimed reply =>
      match w.loop with
      | .claiming free =>
          if reply.jobs.length ≤ free then { w with loop := .resting }.receive none reply
          else (none, w)
      | _ => (none, w)
  | .refused =>
      match w.loop with
      | .claiming _ => (none, { w with loop := .resting })
      | _ => (none, w)
  | .settle i =>
      match w.slots[i]? with
      | some (.running _) => (none, w.put (some i) (.settling w.isOpen))
      | _ => (none, w)
  | .abort i =>
      match w.slots[i]? with
      | some (.running _) => (none, w.put (some i) .aborted)
      | _ => (none, w)
  | .claimAfterAbort i =>
      if w.slots[i]? = some .aborted then
        if w.isOpen then (none, w.put (some i) .claiming)
        else (none, (w.put (some i) .turning).enter (.announcing (some i) []))
      else (none, w)
  | .slotReply i reply =>
      match w.asked i with
      | some n =>
          if reply.jobs.length ≤ n then (w.put (some i) .turning).receive (some i) reply
          else (none, w)
      | none => (none, w)
  | .slotRefused i => if (w.asked i).isSome then (none, w.put (some i) .ended) else (none, w)
  | .fired i =>
      match w.slots[i]? with
      | some (.firing jobs) =>
          if w.isOpen then (none, w.takeNext i jobs)
          else (giveBack jobs, w.put (some i) .releasing)
      | _ => (none, w)
  | .givenBack i =>
      if w.slots[i]? = some .releasing then (none, w.put (some i) .ended) else (none, w)
  | .slotFreed i => if w.slots[i]? = some .ended then (none, w.put (some i) .freed) else (none, w)
  | .close | .next => (none, w)

/-- One act. `close` may be called at any point; an act that cannot happen changes
nothing. -/
def step (accepts : ClaimedJob → Bool) (concurrency : Nat) (a : Act) (w : World) :
    Option Entry × World :=
  match a with
  | .close => if w.isOpen then (some .closed, { w with isOpen := false }) else (none, w)
  | .next => w.next accepts
  | a => if w.thread = .free then w.resume concurrency a else (none, w)

end World
end NxgtData.Worker
