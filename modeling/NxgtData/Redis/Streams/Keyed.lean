import Mathlib.Logic.Function.Basic
import NxgtData.Redis.Streams.Reader

/-!
The streams of one channel: its iterators, the listeners that are registered, and the attempts
to subscribe, one of which is the current one. An attempt settles at any time; what waits for it
goes on at any time after that, in any order. An act on what does not exist does nothing.
-/
namespace NxgtData.Redis.Streams

inductive Settled where
  | inFlight
  | resolved
  | rejected
  deriving DecidableEq, Repr

/-- One call of `source.subscribe`. -/
structure Attempt where
  state : Settled := .inFlight
  /-- `close()` of its subscription was called. -/
  closing : Bool := false
  /-- `release` waits for it in the background, to close its subscription. -/
  thenClose : Bool := false
  /-- The close has taken effect: it delivers nothing. -/
  shut : Bool := false
  deriving DecidableEq, Repr

/-- What the listeners of the channel went through, in order. -/
inductive Happening (μ : Type) where
  | joined (i : Nat)
  | left (i : Nat)
  | delivered (m : μ)

/-- `StreamContext`, with the iterators made and the attempts begun, both numbered from 0. -/
structure World (μ : Type) where
  fallback : Bool
  closed : Bool := false
  /-- The iterators in `byKey`, in the order in which they were added. -/
  listeners : List Nat := []
  count : Nat := 0
  opened : Option Nat := none
  /-- The attempt whose subscription is `live`. -/
  live : Option Nat := none
  attempts : Nat := 0
  attempt : Nat → Attempt := fun _ => {}
  made : Nat := 0
  iter : Nat → Reader μ := fun _ => Reader.made "" ⟨1, Nat.le_refl 1⟩ true
  /-- The calls of `ready`, with the attempt that each awaits, if any. -/
  readies : List (Nat × Option Nat) := []
  happened : List (Happening μ) := []

inductive Act (μ : Type) where
  | stream (key : String) (limit : BufferSize)
  | next (i : Nat)
  /-- The reads of an iterator's first wake go on. -/
  | resume (i : Nat)
  | ready (i : Nat)
  /-- `return()`, `throw()` or the end of an `await using`. -/
  | leave (i : Nat)
  | close
  /-- The subscription of an attempt calls its handler. -/
  | hear (a : Nat) (m : μ)
  /-- The source publishes: every open subscription of it hears. -/
  | publish (m : μ)
  /-- A `publish` of the source failed, having reached nobody. -/
  | unpublished (m : μ)
  | resolve (a : Nat)
  | reject (a : Nat)
  /-- What follows `await attempt` in `open`. -/
  | awaited (a : Nat)
  /-- The reactions of `release` to the attempt. -/
  | react (a : Nat)
  | shut (a : Nat)

namespace World

variable {μ : Type}

def onIter (i : Nat) (f : Reader μ → Reader μ) (w : World μ) : World μ :=
  { w with iter := Function.update w.iter i (f (w.iter i)) }

def onAttempt (a : Nat) (f : Attempt → Attempt) (w : World μ) : World μ :=
  { w with attempt := Function.update w.attempt a (f (w.attempt a)) }

/-- `open`: the attempt in flight or open is awaited. -/
def open_ (w : World μ) : World μ :=
  if w.closed then w
  else
    match w.opened with
    | some _ => w
    | none => { w with opened := some w.attempts, attempts := w.attempts + 1 }

def release (w : World μ) : World μ :=
  let w' := { w with opened := none, live := none }
  match w.opened, w.live with
  | none, _ => w'
  | some _, some a => w'.onAttempt a fun s => { s with closing := true }
  | some a, none => w'.onAttempt a fun s => { s with thenClose := true }

def add (i : Nat) (w : World μ) : World μ :=
  { w with
    listeners := w.listeners ++ [i]
    count := w.count + 1
    happened := w.happened ++ [.joined i] }

def remove (i : Nat) (w : World μ) : World μ :=
  if i ∈ w.listeners then
    let w := { w with
      listeners := w.listeners.erase i
      count := w.count - 1
      happened := w.happened ++ [.left i] }
    if w.count = 0 then w.release else w
  else w

/-- The iterator stops and wakes its reads; `remove` reads nothing of it. -/
def leave (i : Nat) (w : World μ) : World μ := (w.onIter i Reader.stop).remove i

def start (i : Nat) (w : World μ) : World μ :=
  let w := if w.closed then w.onIter i Reader.halt else w
  if (w.iter i).stopped then w
  else
    let w := if (w.iter i).started then w
      else (w.onIter i fun r => { r with started := true }).add i
    w.open_

/-- `next`, before its first read of the queue. -/
def enter (i : Nat) (w : World μ) : World μ :=
  if !(w.iter i).stopped && !(w.iter i).started then w.start i
  else if w.closed then w.onIter i Reader.halt
  else w

/-- `next`, up to its first `await` or to its end. -/
def next (i : Nat) (w : World μ) : World μ :=
  let w := (w.enter i).onIter i Reader.call
  if (w.iter i).stopped then w.leave i else w

def resume (i : Nat) (w : World μ) : World μ :=
  if (w.iter i).woken = [] then w
  else
    let w := w.onIter i Reader.resume
    if (w.iter i).stopped then w.leave i else w

def ready (i : Nat) (w : World μ) : World μ :=
  let w := w.start i
  { w with readies := w.readies ++ [(i, if (w.iter i).stopped then none else w.opened)] }

section
variable (keyOf : μ → String)

/-- `deliver`: each listener of the message's key is pushed it. -/
def deliver (m : μ) (w : World μ) : World μ :=
  { w with
    iter := fun i =>
      if i ∈ w.listeners ∧ (w.iter i).key = keyOf m then (w.iter i).push m else w.iter i
    happened := w.happened ++ [.delivered m] }

def hear (a : Nat) (m : μ) (w : World μ) : World μ :=
  if w.opened = some a then w.deliver keyOf m else w

/-- The attempts whose subscription is open. -/
def up (w : World μ) : List Nat :=
  (List.range w.attempts).filter fun a =>
    (w.attempt a).state = .resolved ∧ (w.attempt a).shut = false

def publish (m : μ) (w : World μ) : World μ := w.up.foldl (fun w a => w.hear keyOf a m) w

def unpublished (m : μ) (w : World μ) : World μ :=
  if w.fallback ∧ ∃ i ∈ w.listeners, (w.iter i).key = keyOf m then w.deliver keyOf m else w

/-- `close`: every listener is stopped and forgotten. -/
def close (w : World μ) : World μ :=
  release { w with
    closed := true
    iter := fun i => if i ∈ w.listeners then (w.iter i).stop else w.iter i
    listeners := []
    count := 0
    happened := w.happened ++ w.listeners.map .left }

def step (w : World μ) : Act μ → World μ
  | .stream key limit =>
      { w with
        made := w.made + 1
        iter := Function.update w.iter w.made (Reader.made key limit w.closed) }
  | .next i => if i < w.made then w.next i else w
  | .resume i => if i < w.made then w.resume i else w
  | .ready i => if i < w.made then w.ready i else w
  | .leave i => if i < w.made then w.leave i else w
  | .close => w.close
  | .hear a m => w.hear keyOf a m
  | .publish m => w.publish keyOf m
  | .unpublished m => w.unpublished keyOf m
  | .resolve a =>
      if a < w.attempts ∧ (w.attempt a).state = .inFlight then
        w.onAttempt a fun s => { s with state := .resolved }
      else w
  | .reject a =>
      if a < w.attempts ∧ (w.attempt a).state = .inFlight then
        w.onAttempt a fun s => { s with state := .rejected }
      else w
  | .awaited a =>
      if w.opened = some a then
        match (w.attempt a).state with
        | .inFlight => w
        | .resolved => { w with live := some a }
        | .rejected => { w with opened := none }
      else w
  | .react a =>
      if (w.attempt a).thenClose then
        match (w.attempt a).state with
        | .inFlight => w
        | .resolved => w.onAttempt a fun s => { s with closing := true, thenClose := false }
        | .rejected => w.onAttempt a fun s => { s with thenClose := false }
      else w
  | .shut a =>
      if (w.attempt a).closing then w.onAttempt a fun s => { s with shut := true } else w

def run (w : World μ) (acts : List (Act μ)) : World μ := acts.foldl (step keyOf) w

/-- What an iterator is to hear: whether it is registered, and what of its key was delivered
while it was. -/
def due (i : Nat) (key : String) (happened : List (Happening μ)) : Bool × List μ :=
  happened.foldl
    (fun (registered, heard) happening =>
      match happening with
      | .joined j => (registered || j == i, heard)
      | .left j => (registered && j != i, heard)
      | .delivered m => (registered, if registered ∧ key = keyOf m then heard ++ [m] else heard))
    (false, [])

end

/-- `next` is called on an iterator that has stopped or whose woken reads have all gone on. -/
def InLine (w : World μ) : Act μ → Prop
  | .next i => (w.iter i).woken = [] ∨ (w.iter i).stopped = true
  | _ => True

/-- Every act of a run is in line. -/
def Patient (keyOf : μ → String) : World μ → List (Act μ) → Prop
  | _, [] => True
  | w, act :: acts => w.InLine act ∧ Patient keyOf (step keyOf w act) acts

end World
end NxgtData.Redis.Streams
