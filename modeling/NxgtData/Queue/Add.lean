import NxgtData.Queue.Groups

/-!
`ADD_JOB_FN` and `ADD`: one plain job written to `ready` or `delayed`, and a
list of jobs of which each may carry a debounce or a throttle key. Clocks are in
milliseconds; a job's `atMs` and `timeoutMs` are `-1` for none.
-/
namespace NxgtData.Queue
open Decimal

/-- `priority * 2^40 + INCR seq`. -/
def readyScore (priority seq : Nat) : Nat := priority * 1099511627776 + seq

/-- What `add_job` is called with. -/
structure NewJob where
  id : String
  data : String
  priority : Nat
  attempts : Nat
  delayMs : Nat := 0
  atMs : Int := -1
  timeoutMs : Int := -1
  group : String := ""
  deriving DecidableEq, Repr

/-- The job's `runAt` before the clock is looked at. -/
def NewJob.runAt (j : NewJob) (now : Nat) : Nat :=
  if j.atMs ≥ 0 then j.atMs.toNat else now + j.delayMs

/-- The hash `add_job` writes. -/
def NewJob.hash (m : GroupArgs) (now : Nat) (j : NewJob) : JobHash where
  data := some j.data
  priority := some (toString j.priority)
  attempt := some (toString 0)
  attempts := some (toString j.attempts)
  state := some (if j.runAt now ≤ now then .waiting else .delayed)
  added := some (toString now)
  runAt := some (toString (max (j.runAt now) now))
  timeout := if j.timeoutMs ≥ 0 then some (toString j.timeoutMs.toNat) else none
  group := if m.grouped ∧ j.group ≠ "" then some j.group else none

/-- `add_job`: `false` when the id already has a hash, which is left alone. -/
def addJob (m : GroupArgs) (now : Nat) (paused : Bool) (j : NewJob) (q : Keys) : Bool × Keys :=
  if (q.job j.id).isSome then (false, q)
  else
    let q := { q with toBoard := q.toBoard.hset j.id fun _ => j.hash m now }
    if j.runAt now ≤ now then
      let q := { q with seq := q.seq + 1 }
      let (claimable, b) := q.toBoard.readyAdd m j.id (readyScore j.priority q.seq)
        (if m.grouped then j.group else "")
      let q := { q with toBoard := b }
      (true, if claimable then q.poke paused else q)
    else
      let q := if Keys.isHead q.delayed (j.runAt now) then q.poke paused else q
      (true, { q with delayed := q.delayed.add (j.runAt now) j.id })

inductive DedupeMode where
  | none
  | debounce
  | throttle
  deriving DecidableEq, Repr

/-- One job of `ADD`: the eleven arguments the client sends for it. -/
structure AddJob extends NewJob where
  mode : DedupeMode := .none
  dedupeKey : String := ""
  ttlMs : Nat := 0
  deriving DecidableEq, Repr

/-- One job's part of `ADD`'s reply: `0`, `1`, or the id the dedupe key holds. -/
inductive AddReply where
  | added
  | existed
  | held (id : String)
  deriving DecidableEq, Repr

/-- `GET` of a dedupe key: past its `PX` it is gone. -/
def Keys.heldBy (q : Keys) (now : Nat) (key : String) : Option String :=
  (q.dedupe key).bind fun e => if e.expires < now then none else some e.value

/-- `SET key id PX ttl`. -/
def Keys.setDedupe (now : Nat) (key id : String) (ttl : Nat) (q : Keys) : Keys :=
  { q with dedupe := Function.update q.dedupe key (some ⟨id, now + ttl⟩) }

/-- Whether a stored key value is an id the script could have written. -/
def isId (held : String) : Bool :=
  held.utf8ByteSize ≥ 1 && held.utf8ByteSize ≤ 256 &&
    !held.toList.any fun c => c = '\x7b' || c = '\x7d'

/-- Whether the job a debounce key names still waits for its first run. -/
def waitingJob (held : String) (b : Board) : Bool :=
  let f := b.hmget held
  if !(f.priority.any whole) then false
  else if f.attempt ≠ some "0" then false
  else if f.retried.isSome then false
  else f.state = some .waiting && held ∈ b.ready || f.state = some .delayed && held ∈ b.delayed

/-- The debounce of a job that still waits: new data, and into `delayed`. -/
def debounceJob (m : GroupArgs) (now : Nat) (paused : Bool) (hit : String) (j : AddJob)
    (q : Keys) : Keys :=
  let runAt := now + j.delayMs
  let b := q.toBoard.hset hit fun h =>
    { h with data := some j.data, state := some .delayed, runAt := some (toString runAt) }
  let b := b.readyRem m hit (b.groupOf hit)
  let q := { q with toBoard := b }
  let q := if Keys.isHead q.delayed runAt then q.poke paused else q
  let q := { q with delayed := q.delayed.add runAt hit }
  q.setDedupe now j.dedupeKey hit j.ttlMs

def addOne (m : GroupArgs) (now : Nat) (paused : Bool) (j : AddJob) (q : Keys) :
    AddReply × Keys :=
  let held := if j.mode = .none then none else q.heldBy now j.dedupeKey
  let held := held.filter isId
  let hit :=
    match j.mode with
    | .none => none
    | .throttle => held
    | .debounce => held.filter fun id => waitingJob id q.toBoard
  match hit with
  | some id =>
      if j.mode = .debounce then (.held id, debounceJob m now paused id j q)
      else (.held id, q)
  | none =>
      match addJob m now paused j.toNewJob q with
      | (true, q) =>
          (.added, if j.mode = .none then q else q.setDedupe now j.dedupeKey j.id j.ttlMs)
      | (false, q) => (.existed, q)

def addAll (m : GroupArgs) (now : Nat) (paused : Bool) : List AddJob → Keys → List AddReply × Keys
  | [], q => ([], q)
  | j :: rest, q =>
      let (r, q) := addOne m now paused j q
      let (rs, q) := addAll m now paused rest q
      (r :: rs, q)

/-- `ADD`, past the groups check. -/
def add (m : GroupArgs) (now : Nat) (jobs : List AddJob) (q : Keys) : List AddReply × Keys :=
  addAll m now q.paused jobs q

end NxgtData.Queue
