import NxgtData.Wait.Outcome

/-!
One call of `finished`, with the queue's scripts and the client's two connections.
What the server sends on the subscriber connection reaches the client in order, and
so do the answers to the reads, each after any delay. The wait hears a message as
soon as it listens, which on a channel that others listen to is at once.
-/
namespace NxgtData.Wait
open Queue

variable {J : Type}

/-- A command on the subscriber connection. -/
inductive Command where
  | subscribe
  | ping
  deriving DecidableEq, Repr

/-- What the server sends on the subscriber connection. -/
inductive Push where
  | confirmed
  /-- The event with this many published before it. -/
  | message (before : Nat) (event : Event)
  /-- The reply to a `PING`, run with this many events published. -/
  | pong (published : Nat)
  deriving DecidableEq, Repr

/-- The first read, or one of the interval's. -/
inductive Read where
  | first
  | again
  deriving DecidableEq, Repr

/-- What brought the outcome. -/
inductive Source where
  | heard (before : Nat)
  | first
  | flushed (published : Nat)
  | reread
  deriving DecidableEq, Repr

/-- Where `waitFinished` stands. -/
inductive Phase where
  | idle
  /-- It awaits `listener.raced`. -/
  | subscribing
  /-- It awaits the first read. -/
  | reading
  | answered (first : Option Outcome)
  | flushing
  | flushed (published : Nat)
  /-- It awaits `done`. -/
  | waiting
  | settled (outcome : Outcome) (source : Source)
  /-- `WAIT_TIMEOUT`, or `CLOSED`. -/
  | rejected
  deriving DecidableEq, Repr

/-- `done` is not settled yet. -/
def Phase.pending : Phase → Bool
  | .idle | .settled _ _ | .rejected => false
  | _ => true

/-- The interval runs. -/
def Phase.polling (phase : Phase) : Bool := phase.pending && phase ≠ .subscribing

/-- Its `PING` was sent. -/
def Phase.asked : Phase → Bool
  | .flushing | .flushed _ => true
  | _ => false

structure World where
  q : Keys := .empty
  /-- The listeners of the channel that are not this wait's. -/
  others : Nat := 0
  /-- The channel's entry, and whether its `ready` has resolved. -/
  entry : Option Bool := none
  commands : List Command := []
  /-- The server has run the `SUBSCRIBE`. -/
  subscribed : Bool := false
  pushes : List Push := []
  reads : List Read := []
  replies : List (Read × Option Outcome) := []
  absent : Nat := 0
  phase : Phase := .idle
  /-- How many events were published before the next message to come. -/
  next : Nat := 0
  /-- How many when the `SUBSCRIBE` was run. -/
  since : Nat := 0
  /-- How many when `finished` was called. -/
  start : Nat := 0
  /-- `next` at the call. -/
  passed : Nat := 0
  /-- The channel was already subscribed at the call. -/
  joined : Bool := false
  /-- How many when the first read was run. -/
  readAt : Nat := 0
  /-- The server's states from the call on. -/
  states : List Keys := []

inductive Act where
  /-- A script, at a reading of the server's clock. -/
  | call (call : Timed)
  /-- Another listener of the channel comes, or goes. -/
  | listen
  | leave
  | finished
  /-- The server runs the next command of the subscriber connection. -/
  | run
  /-- The next push reaches the client. -/
  | push
  /-- `listener.raced` has resolved. -/
  | begin
  /-- The interval's tick. -/
  | reread
  /-- The server runs the next read. -/
  | read
  /-- The next answer reaches the client. -/
  | answer
  /-- What awaited the first read, or the flush, goes on. -/
  | goOn
  | reject

/-- The messages of events, the first of them with `before` published before it. -/
def messages (before : Nat) : List Event → List Push
  | [] => []
  | e :: es => .message before e :: messages (before + 1) es

namespace World

/-- `apply`: the first outcome settles `done`. -/
def apply (outcome : Option Outcome) (source : Source) (w : World) : World :=
  match outcome with
  | some o => if w.phase.pending then { w with phase := .settled o source } else w
  | none => w

def published (w : World) : Nat := w.q.events.length

/-- A script runs, and what it publishes goes to a channel that is subscribed. -/
def serve (m : GroupArgs) (c : Timed) (w : World) : World :=
  let q := (Queue.step m c w.q).2
  let new := messages w.published (q.events.drop w.published)
  { w with
    q
    pushes := if w.subscribed then w.pushes ++ new else w.pushes
    states := if w.phase.pending then w.states ++ [q] else w.states }

/-- A listener of the channel, the first of which subscribes. -/
def join (w : World) : World :=
  match w.entry with
  | none => { w with entry := some false, commands := w.commands ++ [.subscribe] }
  | some _ => w

/-- The last listener leaves: what a later one hears comes after its own `SUBSCRIBE`. -/
def drop (w : World) : World :=
  { w with entry := none, commands := [], subscribed := false, pushes := [] }

def call (w : World) : World :=
  { w.join with
    phase := .subscribing
    start := w.published
    passed := w.next
    joined := w.subscribed
    states := [w.q] }

def runCommand (w : World) : World :=
  match w.commands with
  | [] => w
  | .subscribe :: commands =>
      { w with
        commands
        subscribed := true
        pushes := w.pushes ++ [.confirmed]
        since := w.published
        next := w.published }
  | .ping :: commands => { w with commands, pushes := w.pushes ++ [.pong w.published] }

def receive (json : Json J) (id : String) (w : World) : World :=
  match w.pushes with
  | [] => w
  | .confirmed :: pushes => { w with pushes, entry := w.entry.map fun _ => true }
  | .message k e :: pushes =>
      { w with pushes, next := k + 1 }.apply (fromMessage json id e) (.heard k)
  | .pong n :: pushes =>
      { w with pushes, phase := if w.phase = .flushing then .flushed n else w.phase }

def runRead (json : Json J) (id : String) (w : World) : World :=
  match w.reads with
  | [] => w
  | read :: reads =>
      { w with
        reads
        replies := w.replies ++ [(read, readStored json id w.q.toBoard)]
        readAt := if read = .first then w.published else w.readAt }

def receiveRead (w : World) : World :=
  match w.replies with
  | [] => w
  | (.first, o) :: replies =>
      { w with replies, phase := if w.phase = .reading then .answered o else w.phase }
  | (.again, o) :: replies =>
      let absent := if o = some .absent then w.absent + 1 else 0
      let w := { w with replies, absent }
      if o ≠ some .absent ∨ absent ≥ 2 then w.apply o .reread else w

def goOn (w : World) : World :=
  match w.phase with
  | .answered (some .absent) => { w with phase := .flushing, commands := w.commands ++ [.ping] }
  | .answered (some o) => { w with phase := .settled o .first }
  | .answered none => { w with phase := .waiting }
  | .flushed n => { w with phase := .settled .absent (.flushed n) }
  | _ => w

/-- One act, until the wait has settled. An act that cannot happen changes nothing. -/
def step (m : GroupArgs) (json : Json J) (id : String) (a : Act) (w : World) : World :=
  match w.phase with
  | .settled _ _ | .rejected => w
  | _ =>
      match a with
      | .call c => w.serve m c
      | .listen => { w.join with others := w.others + 1 }
      | .leave =>
          if w.others = 1 ∧ w.phase = .idle then { w.drop with others := 0 }
          else { w with others := w.others - 1 }
      | .finished => if w.phase = .idle then w.call else w
      | .run => w.runCommand
      | .push => w.receive json id
      | .begin =>
          if w.phase = .subscribing ∧ w.entry = some true then
            { w with phase := .reading, reads := w.reads ++ [.first] }
          else w
      | .reread => if w.phase.polling then { w with reads := w.reads ++ [.again] } else w
      | .read => w.runRead json id
      | .answer => w.receiveRead
      | .goOn => w.goOn
      | .reject => if w.phase.pending then { w with phase := .rejected } else w

end World
end NxgtData.Wait
