import NxgtData.Queue.Add

/-!
`CLAIM_FN` and its steps: due schedules, reclaim, promote, pop, the rate's
charge, the wake rule and the wait. A job hash is read only through `sound`; one
that fails it is refused to `failed`. Every loop keeps its cap.
-/
namespace NxgtData.Queue
open Decimal Gcra

/-- The trust check on a job hash. -/
def sound (f : JobHash) : Bool :=
  f.data.isSome && f.attempt.any whole && f.attempts.any whole && f.priority.any whole
    && f.attempts.any (fun v => tonumber v ≥ 1) && f.priority.any (fun v => tonumber v ≤ 1000)
    && f.timeout.all (fun v => whole v && v.utf8ByteSize ≤ 15 && tonumber v ≥ 1)
    && groupSound f.group

/-- `tonumber` of a field that `sound` found whole. -/
def number (field : Option String) : Nat := (field.map tonumber).getD 0

def invalidError : String :=
  "\x7b\"name\":\"QueueError\",\"message\":\"INVALID: a stored job this package could not have written\"\x7d"

def lapsedError : String := "\x7b\"name\":\"LeaseLapsed\",\"message\":\"lease lapsed\"\x7d"

structure ClaimedJob where
  id : String
  data : String
  attempt : Nat
  attempts : Nat
  token : String
  /-- `-1` for none. -/
  timeout : Int
  deriving DecidableEq, Repr

structure DueSchedule where
  id : String
  kind : String
  spec : String
  timezone : String
  due : Nat
  deriving DecidableEq, Repr

structure ClaimReply where
  jobs : List ClaimedJob := []
  stalled : List String := []
  invalid : List String := []
  next : Int := -1
  due : List DueSchedule := []
  deriving DecidableEq, Repr

/-- The tables a claim fills while it runs, and the keys it runs on. -/
structure Claiming where
  q : Keys
  jobs : List ClaimedJob := []
  stalled : List String := []
  invalid : List String := []

def scheduleSound (f : ScheduleHash) : Bool :=
  f.kind.isSome && f.spec.isSome && f.data.isSome && f.origin.isSome
    && (f.origin = some "definition" || f.origin = some "runtime")
    && (f.kind = some "cron" || (f.kind = some "every" && f.timezone.isNone && f.spec.any whole
      && f.spec.any (fun v => v.utf8ByteSize ≤ 15) && f.spec.any (fun v => tonumber v ≥ 1000)))

def Keys.scheduleHash (q : Keys) (id : String) : ScheduleHash := (q.schedule id).getD {}

/-- The first 20 sound ones of the first 100 schedules due. -/
def dueSchedules (now : Nat) (q : Keys) : List DueSchedule :=
  ((q.schedules.range (· ≤ now) 100).filterMap fun (due, id) =>
    let f := q.scheduleHash id
    if scheduleSound f then
      some ⟨id, f.kind.getD "", f.spec.getD "", f.timezone.getD "", due⟩
    else none).take 20

variable (m : GroupArgs)

/-- `refuse` on the board: an id whose hash is gone is only dropped. -/
def Board.refuse (now : Nat) (id : String) (b : Board) : Board :=
  let g := b.groupOf id
  let b := { b with delayed := b.delayed.rem id }
  let b := b.readyRem m id g
  let b := (b.activeRem m id g).2
  if (b.job id).isNone then b
  else
    let b := b.hset id fun h =>
      { h with state := some .failed, error := some invalidError, finished := some (toString now) }
    let b := b.hdel id fun h => { h with token := none }
    let b := { b with failed := b.failed.add now id }
    b.publish (.failed id invalidError)

def refuse (now : Nat) (id : String) (st : Claiming) : Claiming :=
  { st with
    q := { st.q with toBoard := st.q.toBoard.refuse m now id }
    invalid := if (st.q.job id).isNone then st.invalid else st.invalid ++ [id] }

/-- `ready_add` under a fresh score from the stored priority. -/
def Keys.readyAgain (id : String) (priority : Nat) (g : String) (q : Keys) : Bool × Keys :=
  let q := { q with seq := q.seq + 1 }
  let (claimable, b) := q.toBoard.readyAdd m id (readyScore priority q.seq) g
  (claimable, { q with toBoard := b })

def reclaimOne (now : Nat) (st : Claiming) (id : String) : Claiming :=
  let f := st.q.hmget id
  if !sound f then refuse m now id st
  else
    let b := (st.q.toBoard.activeRem m id (f.group.getD "")).2
    let b := b.hdel id fun h => { h with token := none }
    let q :=
      if number f.attempt < number f.attempts then
        let b := b.hset id fun h => { h with state := some .waiting }
        (Keys.readyAgain m id (number f.priority) (f.group.getD "") { st.q with toBoard := b }).2
      else
        let b := b.hset id fun h =>
          { h with state := some .failed, error := some lapsedError, finished := some (toString now) }
        let b := { b with failed := b.failed.add now id }
        { st.q with toBoard := b.publish (.failed id lapsedError) }
    { st with q, stalled := st.stalled ++ [id] }

/-- Up to 100 active ids whose lease lapsed. -/
def reclaim (now : Nat) (st : Claiming) : Claiming :=
  ((st.q.active.range (· < now) 100).map Prod.snd).foldl (reclaimOne m now) st

def promoteOne (now : Nat) (st : Claiming) (id : String) : Claiming :=
  let f := st.q.hmget id
  if !sound f then refuse m now id st
  else
    let b := { st.q.toBoard with delayed := st.q.delayed.rem id }
    let b := b.hset id fun h => { h with state := some .waiting }
    { st with q :=
      (Keys.readyAgain m id (number f.priority) (f.group.getD "") { st.q with toBoard := b }).2 }

/-- Up to 1000 due delayed ids. -/
def promote (now : Nat) (st : Claiming) : Claiming :=
  ((st.q.delayed.range (· ≤ now) 1000).map Prod.snd).foldl (promoteOne m now) st

/-- `begin(id, g)`, after the job was popped. -/
def beginJob (now lease : Nat) (tokens : List String) (id g : String) (st : Claiming) : Claiming :=
  let f := st.q.hmget id
  if !sound f then refuse m now id st
  else
    let token := tokens.getD st.jobs.length ""
    let attempt := number f.attempt + 1
    let b := st.q.toBoard.hset id fun h =>
      { h with state := some .active, token := some token, attempt := some (toString attempt) }
    let b := { b with active := b.active.add (now + lease) id, groups := b.groups.slotTaken m g }
    { st with
      q := { st.q with toBoard := b }
      jobs := st.jobs ++ [⟨id, f.data.getD "", attempt, number f.attempts, token,
        (f.timeout.map fun v => (tonumber v : Int)).getD (-1)⟩] }

/-- What one turn of `pop_groups` pops once its group `g` is taken: nothing
when the group is full or empty. -/
def Board.popped (g : String) (b : Board) : List String × ZSet :=
  if b.groups.hasSlot m g then (b.groups.ready g).popMin 1 else ([], b.groups.ready g)

/-- The board after `ZPOPMIN` of the group's zset and `ZREM ready`. -/
def Board.popGroup (id g : String) (z : ZSet) (b : Board) : Board :=
  { b with
    groups := { b.groups with ready := Function.update b.groups.ready g z }
    ready := b.ready.rem id }

/-- The group goes to the tail when it still has jobs and a free slot. -/
def Board.requeue (g : String) (b : Board) : Board :=
  if b.groups.hasSlot m g && (b.groups.ready g).card > 0 then
    { b with groups := b.groups.rrPush g }
  else b

/-- One turn of `pop_groups`: `none` when the list is empty, else the group that
was served, if any, and the claim so far. -/
def popTurn (now lease : Nat) (tokens : List String) (st : Claiming) :
    Option (Option String × Claiming) :=
  match st.q.groups.rrTake with
  | none => none
  | some (g, k) =>
      let b := { st.q.toBoard with groups := k }
      match b.popped m g with
      | (id :: _, z) =>
          let st := { st with q := { st.q with toBoard := b.popGroup id g z } }
          let st := beginJob m now lease tokens id g st
          some (some g, { st with q := { st.q with toBoard := st.q.toBoard.requeue m g } })
      | ([], _) => some (none, { st with q := { st.q with toBoard := b } })

/-- `pop_groups` with `takes` turns left, `got` jobs popped of `n`. -/
def popGroups (now lease : Nat) (tokens : List String) (n : Nat) :
    Nat → Nat → Claiming → Claiming
  | 0, _, st => st
  | takes + 1, got, st =>
      if got < n then
        match popTurn m now lease tokens st with
        | none => st
        | some (some _, st) => popGroups now lease tokens n takes (got + 1) st
        | some (none, st) => popGroups now lease tokens n takes got st
      else st

/-- The pop of an ungrouped queue: one `ZPOPMIN ready`, then each job begins. -/
def popReady (now lease : Nat) (tokens : List String) (most : Nat) (st : Claiming) : Claiming :=
  let (ids, ready) := st.q.ready.popMin most
  ids.foldl (fun st id => beginJob m now lease tokens id "" st)
    { st with q := { st.q with ready } }

/-- The claim's peek at cost 1, which writes nothing. -/
def peek (us : Nat) (rate : Rate) (q : Keys) : Answer := (gcra q.rate us rate 1 false).1

/-- How many jobs a claim of `n` may pop. -/
def admitted (us n : Nat) (rate : Option Rate) (q : Keys) : Nat :=
  if q.paused then 0
  else
    match rate with
    | none => n
    | some rate =>
        let one := peek us rate q
        if !one.allowed then 0 else min n (one.remaining + 1)

/-- The charge of the jobs started, in one write. -/
def charge (us : Nat) (rate : Option Rate) (k : Nat) (q : Keys) : Keys :=
  match rate with
  | none => q
  | some rate => if k > 0 then { q with rate := (gcra q.rate us rate k true).2 } else q

/-- Whether work is claimable, by the claim's own measure. -/
def Keys.claimable (q : Keys) : Bool :=
  if m.grouped then q.groups.list.length > 0 else q.ready.card > 0

/-- The rate's `retryAfter` while it refuses the jobs in `ready`, else `-1`. -/
def retryAfter (us : Nat) (rate : Option Rate) (q : Keys) : Int :=
  match rate with
  | none => -1
  | some rate =>
      if q.claimable m && !q.paused then
        let one := peek us rate q
        if !one.allowed then one.retryAfter else -1
      else -1

/-- One token when work is claimable, and none otherwise. -/
def settleWake (retry : Int) (q : Keys) : Keys :=
  if !q.paused && q.claimable m && retry < 0 then q.wakeUp else { q with wake := 0 }

/-- `next_wait`. -/
def nextWait (now : Nat) (backlog : Bool) (retry : Int) (q : Keys) : Int :=
  if backlog then 0
  else
    let wait : Int := match q.delayed.first with
      | some (score, _) => max 0 ((score : Int) - now)
      | none => -1
    let wait : Int := match q.schedules.range (now < ·) 1 with
      | (score, _) :: _ => if wait < 0 ∨ (score : Int) - now < wait then (score : Int) - now else wait
      | [] => wait
    if retry ≥ 0 ∧ (wait < 0 ∨ retry < wait) then retry else wait

/-- The claim up to its pop: reclaim, then promote. -/
def claimReady (now : Nat) (q : Keys) : Claiming := promote m now (reclaim m now { q })

/-- The claim's pop, as many jobs as are admitted. -/
def claimPop (now us n lease : Nat) (tokens : List String) (rate : Option Rate) (st : Claiming) :
    Claiming :=
  let most := admitted us n rate st.q
  if most > 0 ∧ m.grouped then popGroups m now lease tokens most (2 * most + 10) 0 st
  else if most > 0 then popReady m now lease tokens most st
  else st

/-- `claim(n, lease, tokens, now, rate, sprefix)`, at `us` microseconds. -/
def claim (us n lease : Nat) (tokens : List String) (rate : Option Rate) (q : Keys) :
    ClaimReply × Keys :=
  let now := us / 1000
  let scheduled := dueSchedules now q
  let st := claimPop m now us n lease tokens rate (claimReady m now q)
  let q := charge us rate st.jobs.length st.q
  let retry := retryAfter m us rate q
  let q := settleWake m retry q
  let next := if q.paused then 5000 else nextWait now (scheduled.length ≥ 20) retry q
  (⟨st.jobs, st.stalled, st.invalid, next, scheduled⟩, q)

end NxgtData.Queue
