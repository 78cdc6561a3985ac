import NxgtData.Queue.Claim

/-!
The scripts that act on one job under its token (`COMPLETE`, `FAIL`, `RELEASE`,
`RENEW`, `PROGRESS`, `STEP_BEGIN`, `STEP_COMMIT`) and those of inspection and
repair (`CANCEL`, `RETRY`, `REMOVE`, `PAUSE`, `RESUME`). A settle is split from
the claim that follows it in the same script.
-/
namespace NxgtData.Queue
open Decimal Gcra

/-- `drop` of `trim`: the ids leave the zset and their hashes are deleted. -/
def dropCompleted (b : Board) (id : String) : Board :=
  { b.del id with completed := b.completed.rem id }

def dropFailed (b : Board) (id : String) : Board := { b.del id with failed := b.failed.rem id }

/-- `trim(zkey, now, age, count)` over the zset `place`: the ids older than
`age`, then the oldest beyond `count` (`-1` for no count), 100 removals at most. -/
def trim (place : Board → ZSet) (drop : Board → String → Board) (now age count : Int)
    (b : Board) : Board :=
  let old := ((place b).range (fun score => (score : Int) < now - age) 100).map Prod.snd
  let left := 100 - old.length
  let b := old.foldl drop b
  if count ≥ 0 ∧ left > 0 then
    let excess := ((place b).card : Int) - count
    if excess > 0 then
      (((place b).range (fun _ => true) (min excess.toNat left)).map Prod.snd).foldl drop b
    else b
  else b

variable (m : GroupArgs)

/-- `COMPLETE` up to its claim; answers `settled` and whether a group was freed. -/
def completeSettle (now : Nat) (id token : String) (keepAge keepCount : Int) (result : String)
    (b : Board) : Bool × Bool × Board :=
  if (b.hmget id).token ≠ some token then (false, false, b)
  else
    let (freed, b) := b.activeRem m id (b.groupOf id)
    let b :=
      if keepAge < 0 then trim Board.completed dropCompleted now 0 0 (b.del id)
      else
        let b := b.hset id fun h =>
          { h with
            state := some .completed
            finished := some (toString now)
            result := if result ≠ "" then some result else h.result }
        let b := b.hdel id fun h => { h with token := none }
        let b := { b with completed := b.completed.add now id }
        trim Board.completed dropCompleted now keepAge keepCount b
    (true, freed, b.publish (.completed id result))

/-- The claim of a settle, or the wake of a slot it freed. -/
def settleClaim (us lease : Nat) (claimToken : String) (rate : Option Rate) (freed : Bool)
    (q : Keys) : ClaimReply × Keys :=
  if claimToken ≠ "" then claim m us 1 lease [claimToken] rate q
  else ({}, if freed && !q.paused then q.wakeUp else q)

/-- `COMPLETE`, past the groups check. -/
def complete (us : Nat) (id token : String) (keepAge keepCount : Int) (lease : Nat)
    (claimToken result : String) (rate : Option Rate) (q : Keys) : (Bool × ClaimReply) × Keys :=
  let (settled, freed, b) :=
    completeSettle m (us / 1000) id token keepAge keepCount result q.toBoard
  let (reply, q) := settleClaim m us lease claimToken rate freed { q with toBoard := b }
  ((settled, reply), q)

/-- What a `FAIL` settled. -/
structure Failing where
  settled : Bool := false
  final : Bool := false
  freed : Bool := false
  /-- The retry became the head of `delayed`. -/
  headWake : Bool := false

/-- `FAIL` up to its claim. `sound` reads four fields here, not six. -/
def failSettle (now : Nat) (id token error : String) (retryIn : Int) (keepFailed : Nat)
    (b : Board) : Failing × Board :=
  let f := b.hmget id
  if f.token ≠ some token then ({}, b)
  else
    let (freed, b) := b.activeRem m id (b.groupOf id)
    let b := b.hdel id fun h => { h with token := none }
    if retryIn ≥ 0 ∧ sound { f with timeout := none, group := none } ∧
        number f.attempt < number f.attempts then
      let runAt := now + retryIn.toNat
      let headWake := Keys.isHead b.delayed runAt
      let b := b.hset id fun h =>
        { h with state := some .delayed, error := some error, runAt := some (toString runAt) }
      (⟨true, false, freed, headWake⟩, { b with delayed := b.delayed.add runAt id })
    else
      let b := b.hset id fun h =>
        { h with state := some .failed, error := some error, finished := some (toString now) }
      let b := { b with failed := b.failed.add now id }
      let b := trim Board.failed dropFailed now keepFailed (-1) b
      (⟨true, true, freed, false⟩, b.publish (.failed id error))

/-- `FAIL`, past the groups check. -/
def fail (us : Nat) (id token error : String) (retryIn : Int) (keepFailed lease : Nat)
    (claimToken : String) (rate : Option Rate) (q : Keys) :
    (Bool × Bool × ClaimReply) × Keys :=
  let (settle, b) := failSettle m (us / 1000) id token error retryIn keepFailed q.toBoard
  let (reply, q) := settleClaim m us lease claimToken rate settle.freed { q with toBoard := b }
  let q := if settle.headWake && decide (id ∈ q.delayed) then q.wakeUp else q
  ((settle.settled, settle.final, reply), q)

/-- One job of `RELEASE`; answers whether it was given back and what is claimable. -/
def releaseOne (id token : String) (q : Keys) : Bool × Bool × Keys :=
  let f := q.hmget id
  if f.token = some token ∧ f.state = some .active ∧ sound f ∧ number f.attempt ≥ 1 then
    let g := f.group.getD ""
    let (freed, b) := q.toBoard.activeRem m id g
    let b := b.hset id fun h =>
      { h with state := some .waiting, attempt := some (toString (number f.attempt - 1)) }
    let b := b.hdel id fun h => { h with token := none }
    let (claimable, q) := Keys.readyAgain m id (number f.priority) g { q with toBoard := b }
    (true, freed || claimable, q)
  else (false, false, q)

def releaseAll : List (String × String) → Keys → List String × Bool × Keys
  | [], q => ([], false, q)
  | (id, token) :: rest, q =>
      let (given, claimable, q) := releaseOne m id token q
      let (released, later, q) := releaseAll rest q
      (if given then id :: released else released, claimable || later, q)

/-- `RELEASE`, past the groups check. -/
def release (jobs : List (String × String)) (q : Keys) : List String × Keys :=
  let (released, claimable, q) := releaseAll m jobs q
  (released, if claimable && !q.paused then q.wakeUp else q)

/-- `RENEW`: `ZADD XX` under the token; answers the ids that lost it. -/
def renew (now lease : Nat) : List (String × String) → Board → List String × Board
  | [], b => ([], b)
  | (id, token) :: rest, b =>
      if (b.hmget id).token = some token then
        renew now lease rest
          (if id ∈ b.active then { b with active := b.active.add (now + lease) id } else b)
      else
        let (lost, b) := renew now lease rest b
        (id :: lost, b)

def progress (id token value : String) (b : Board) : Bool × Board :=
  if (b.hmget id).token ≠ some token then (false, b)
  else (true, b.hset id fun h => { h with progress := some value })

/-- The fence of a step: the token holds and the lease has not lapsed. -/
def held (now : Nat) (id token : String) (b : Board) : Bool :=
  (b.hmget id).token = some token && (b.active.score id).any (· > now)

inductive StepBegin where
  | lost
  | run
  | stored (json : String)
  deriving DecidableEq, Repr

/-- `STEP_BEGIN`: a fresh step pushes the lease, never back (`ZADD XX GT`). -/
def stepBegin (now : Nat) (id token name : String) (lease : Nat) (b : Board) :
    StepBegin × Board :=
  if !held now id token b then (.lost, b)
  else
    match (b.hmget id).step name with
    | some json => (.stored json, b)
    | none =>
        (.run, if (b.active.score id).any (· < now + lease) then
          { b with active := b.active.add (now + lease) id } else b)

def stepCommit (now : Nat) (id token name json : String) (b : Board) : Bool × Board :=
  if !held now id token b then (false, b)
  else (true, b.hset id fun h => { h with step := Function.update h.step name (some json) })

/-- `CANCEL` up to its wake; answers whether a slot was freed, `none` when there
is nothing to cancel. -/
def cancelJob (id : String) (b : Board) : Option (Bool × Board) :=
  let f := b.hmget id
  let g := b.groupOf id
  match f.state with
  | some .waiting =>
      if id ∈ b.ready then some (false, (b.readyRem m id g).del id |>.publish (.canceled id none))
      else none
  | some .delayed =>
      if id ∈ b.delayed then
        some (false, { b with delayed := b.delayed.rem id }.del id |>.publish (.canceled id none))
      else none
  | some .active =>
      if id ∈ b.active then
        let (freed, b) := b.activeRem m id g
        some (freed, b.del id |>.publish (.canceled id f.token))
      else none
  | _ => none

/-- `CANCEL`, past the groups check. -/
def cancel (id : String) (q : Keys) : Bool × Keys :=
  match cancelJob m id q.toBoard with
  | none => (false, q)
  | some (freed, b) =>
      let q := { q with toBoard := b }
      (true, if freed && !q.paused then q.wakeUp else q)

/-- `RETRY`, past the groups check. -/
def retry (now : Nat) (id : String) (fresh : Bool) (q : Keys) : Bool × Keys :=
  let f := q.hmget id
  if id ∉ q.failed then (false, q)
  else if f.state ≠ some .failed then (false, q)
  else if !sound f then (false, q)
  else
    let b := { q.toBoard with failed := q.failed.rem id }
    let b := b.hset id fun h =>
      { h with
        state := some .waiting
        attempt := some (toString 0)
        retried := some "1"
        runAt := some (toString now) }
    let b := b.hdel id fun h => { h with error := none, finished := none, token := none }
    let (claimable, q) :=
      Keys.readyAgain m id (number f.priority) (b.groupOf id) { q with toBoard := b }
    let q := if fresh then
        { q with toBoard := q.toBoard.hdel id fun h => { h with step := fun _ => none } }
      else q
    (true, if claimable && !q.paused then q.wakeUp else q)

inductive Removed where
  | none
  | removed
  | active
  deriving DecidableEq, Repr

/-- `REMOVE`, past the groups check. -/
def remove (id : String) (b : Board) : Removed × Board :=
  if id ∈ b.active ∨ (b.hmget id).state = some .active then (.active, b)
  else
    let existed := (b.job id).isSome
    let b := b.readyRem m id (b.groupOf id)
    let b := { b with
      delayed := b.delayed.rem id
      active := b.active.rem id
      completed := b.completed.rem id
      failed := b.failed.rem id }
    (if existed then .removed else .none, b.del id)

def pause (q : Keys) : Keys := { q with paused := true }

/-- `RESUME`, past the groups check. -/
def resume (q : Keys) : Keys :=
  let q := { q with paused := false }
  if q.claimable m || q.delayed.card > 0 then q.wakeUp else q

end NxgtData.Queue
