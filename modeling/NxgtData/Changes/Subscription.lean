import NxgtData.Changes.Events

/-!
A subscription to the changes of a collection: the stream it reads, the three tokens it
holds, and the loop that hands over one change at a time. A run interleaves the server's
events, the answers of the stream, the caller's handler and `close`.
-/
namespace NxgtData.Changes

variable {V : Type}

/-- A resume token, by the events it is past: the `_id` of an event, or one of those the
server answers a read with, of which there are many at one place. -/
inductive Token where
  | event (index : Nat)
  | batch (past mark : Nat)
deriving DecidableEq

def Token.past : Token → Nat
  | .event index => index + 1
  | .batch past _ => past

/-- The errors of a stream, as far as they are looked at. -/
structure StreamError where
  /-- The name starts with `Mongo`. -/
  mongo : Bool
  /-- Its class or one above it is `MongoAPIError`. -/
  api : Bool
  code : Option Nat
deriving DecidableEq

/-- Server errors a new stream would only meet again. -/
def fatal : List Nat := [2, 9, 13, 14, 18, 280, 286, 40647]

def StreamError.worthRetrying (error : StreamError) : Bool :=
  error.mongo && !error.api && error.code.all (· ∉ fatal)

/-- A stream of the driver, by where it was opened and what it answers next. -/
structure Stream where
  startAfter : Option Token
  /-- The next event, once the server has opened it. -/
  cursor : Option Nat
  /-- A read of it was answered. -/
  heard : Bool := false
deriving DecidableEq

def watch (token : Option Token) : Stream :=
  { startAfter := token, cursor := token.map Token.past }

/-- What the driver's `resumeToken` may be: past what it returned and nothing more, and
undefined only on a stream opened from now that has not been answered. -/
def Stream.Shows (stream : Stream) : Option Token → Prop
  | none => stream.startAfter = none ∧ stream.heard = false
  | some token => stream.cursor = some token.past

instance (stream : Stream) (token : Option Token) : Decidable (stream.Shows token) := by
  cases token <;> unfold Stream.Shows <;> exact inferInstance

/-- What the promise `closed` settled to. -/
inductive Closed where
  | closed | invalidated | failed | rejected
deriving DecidableEq

inductive Phase where
  | reading
  /-- The handler runs on an event. -/
  | handling (index : Nat)
  /-- `onError` runs on the error of the handler. -/
  | reporting (index : Nat)
  | pausing
  /-- `onError` runs on what ended the subscription. -/
  | lastWords
  | done (outcome : Closed)
deriving DecidableEq

/-- One subscription and the server's events. -/
structure World (V : Type) where
  log : List (Event V)
  closing : Bool := false
  stream : Stream
  /-- Where to reopen from. -/
  token : Option Token
  /-- The token of the last change handled: what `resumeToken` shows. -/
  handled : Option Token := none
  /-- Where the stream is, changes or not: what `position` shows. -/
  position : Option Token := none
  /-- Failed attempts since the last read that worked. -/
  failures : Nat := 0
  phase : Phase := .reading
  ready : Option Bool := none
  /-- What the handler was called with. -/
  delivered : List (Change V Token) := []
  /-- The events handled. -/
  count : Nat := 0
  /-- Where the subscription started, once a token or an event told. -/
  origin : Option Nat
  /-- The event whose handler ended the subscription by its error. -/
  failedAt : Option Nat := none
  /-- Calls of `close` from outside that wait. -/
  closers : Nat := 0
  /-- A call of `close` from outside has resolved. -/
  closeResolved : Bool := false

/-- The change of an event. -/
def image (ctx : Collection V) (options : ChangeOptions Token) (log : List (Event V))
    (index : Nat) : Option (Change V Token) :=
  log[index]?.bind (ctx.toChange options (.event index))

/-- `subscribe`, over the events the server has. -/
def subscribe (options : ChangeOptions Token) (log : List (Event V)) : World V :=
  { log, stream := watch options.startAfter, token := options.startAfter
    origin := options.startAfter.map Token.past }

namespace World

def finish (w : World V) (outcome : Closed) : World V :=
  { w with phase := .done outcome, ready := w.ready.or (some true) }

/-- The top of the loop of `drain`. -/
def readOn (w : World V) : World V :=
  if w.closing then w.finish .closed else { w with phase := .reading }

/-- The top of the loop of `listen`. -/
def reopen (w : World V) : World V :=
  if w.closing then w.finish .closed
  else { w with phase := .reading, stream := watch w.token }

/-- `listen` rejects: by an error of the caller's code that `onError` has seen or not,
or by one of the stream's. -/
def giveUp (w : World V) (onError told : Bool) : World V :=
  { w with
    phase := if told || !onError then .done .rejected else .lastWords
    ready := w.ready.or (some false) }

/-- A read worked. -/
def answered (w : World V) : World V :=
  { w with
    failures := 0, ready := w.ready.or (some true)
    origin := w.origin.or w.stream.cursor, stream := { w.stream with heard := true } }

/-- The event is done with, by its handler or because there is nothing to deliver. -/
def eventHandled (w : World V) (index : Nat) : World V :=
  let token := some (.event index)
  { w with handled := token, token, position := token, count := w.count + 1 }.readOn

variable (ctx : Collection V) (options : ChangeOptions Token)

/-- The stream hands over its next event. -/
def readEvent (w : World V) : World V :=
  match w.phase, w.stream.cursor with
  | .reading, some index =>
      match w.log[index]? with
      | none => w
      | some event =>
          let w := { w.answered with
            stream := { w.stream with cursor := some (index + 1), heard := true } }
          if event.operationType = .invalidate then w.finish .invalidated
          else match ctx.toChange options (.event index) event with
            | none => w.eventHandled index
            | some change =>
                { w with phase := .handling index, delivered := w.delivered ++ [change] }
  | _, _ => w

/-- The stream answers `null`. -/
def readNull (w : World V) (token : Option Token) : World V :=
  if w.phase = .reading ∧ w.stream.cursor.isSome ∧ w.answered.stream.Shows token then
    { w.answered with position := token.or w.position }.readOn
  else w

/-- The read fails, with the token the stream is left with. -/
def readFails (w : World V) (error : StreamError) (token : Option Token) : World V :=
  if w.phase = .reading ∧ w.stream.Shows token then
    if w.closing then w.finish .closed
    else
      let w := { w with token := token.or w.token, origin := w.origin.or (token.map Token.past) }
      if !error.worthRetrying || options.retries ≤ w.failures then w.giveUp options.onError false
      else { w with failures := w.failures + 1, phase := .pausing }
  else w

/-- The handler settles. -/
def handlerSettles (w : World V) (ok : Bool) : World V :=
  match w.phase with
  | .handling index =>
      if ok then w.eventHandled index
      else if options.onError then { w with phase := .reporting index }
      else { w with failedAt := some index }.giveUp options.onError false
  | _ => w

/-- `onError` settles. -/
def onErrorSettles (w : World V) (ok : Bool) : World V :=
  match w.phase with
  | .reporting index =>
      if ok then w.eventHandled index
      else { w with failedAt := some index }.giveUp options.onError true
  | .lastWords => { w with phase := .done (if ok then .failed else .rejected) }
  | _ => w

end World

/-- What happens next. A call of `close` from inside is one that the handler or
`onError` made, or a timer or a promise started in one. -/
inductive Act (V : Type) where
  | emit (event : Event V)
  /-- The server opens a stream that starts from now. -/
  | opens
  | readEvent
  | readNull (token : Option Token)
  | readFails (error : StreamError) (token : Option Token)
  | paused
  | handler (ok : Bool)
  | onError (ok : Bool)
  | close (inside : Bool)
  | closeResolves

def World.step (ctx : Collection V) (options : ChangeOptions Token) (w : World V) :
    Act V → World V
  | .emit event => { w with log := w.log ++ [event] }
  | .opens =>
      if w.stream.cursor.isNone then
        { w with stream := { w.stream with cursor := some w.log.length } }
      else w
  | .readEvent => w.readEvent ctx options
  | .readNull token => w.readNull token
  | .readFails error token => w.readFails options error token
  | .paused => if w.phase = .pausing then w.reopen else w
  | .handler ok => w.handlerSettles options ok
  | .onError ok => w.onErrorSettles options ok
  | .close inside =>
      { w with closing := true, closers := if inside then w.closers else w.closers + 1 }
  | .closeResolves =>
      match w.phase with
      | .done _ => if w.closers = 0 then w else { w with closeResolved := true }
      | _ => w

/-- The world after acts, from `subscribe`. -/
def run (ctx : Collection V) (options : ChangeOptions Token) (log : List (Event V))
    (acts : List (Act V)) : World V :=
  acts.foldl (·.step ctx options) (subscribe options log)

end NxgtData.Changes
