import Mathlib.Data.List.Induction

/-!
A follower of a search sync: what it holds between the changes of the
subscription, and the flushes that send it and record the resume point. Flushes run
one after the other, and each waits for Meilisearch and for the server, so a run
interleaves their parts with the reads of the stream and with the handler.
-/
namespace NxgtData.Search

variable {τ κ ι δ : Type}

/-- One document's fate in the index: sent, or taken out. -/
inductive Entry (κ ι δ : Type) where
  | upsert (key : κ) (document : δ)
  | delete (key : κ) (id : ι)
deriving DecidableEq

def Entry.key : Entry κ ι δ → κ
  | .upsert key _ => key
  | .delete key _ => key

/-- `Map.set`: the entry of a key that is there keeps its place. -/
def setEntry [DecidableEq κ] (pending : List (Entry κ ι δ)) (entry : Entry κ ι δ) :
    List (Entry κ ι δ) :=
  if pending.any (·.key = entry.key) then
    pending.map fun e => if e.key = entry.key then entry else e
  else pending ++ [entry]

inductive Failure where
  | sending | following | leaseLost
deriving DecidableEq

/-- The timeout of `f.timer`, which stays set once it has fired. -/
inductive Timer where
  | unset | set | fired
deriving DecidableEq

/-- `if (!f.timer) f.timer = setTimeout(…)`. -/
def Timer.start : Timer → Timer
  | .unset => .set
  | timer => timer

/-- What a running sync holds between changes. -/
structure Following (τ κ ι δ : Type) where
  pending : List (Entry κ ι δ) := []
  /-- The token of the last change in `pending`. -/
  last : Option τ := none
  saved : τ
  /-- Changes whose handler has not queued them yet. -/
  inFlight : Nat := 0
  timer : Timer := .unset
  /-- Records where the stream is while nothing is being sent. -/
  beat : Bool := false
  heard : Bool := false
  /-- The stream has stopped: what is queued no longer records anything. -/
  done : Bool := false
  failure : Option Failure := none

inductive Caller where
  | beat | timer | batch | explicit
deriving DecidableEq

/-- What a flush found when its turn on the chain came. -/
structure Found (τ : Type) where
  pending : Nat
  inFlight : Nat
  done : Bool
  last : Option τ
  position : Option τ
  recorded : Option τ
deriving DecidableEq

/-- What a flush waits for: `send`, or `saveState`. -/
inductive Phase (τ κ ι δ : Type) where
  | sending (entries : List (Entry κ ι δ)) (upTo : Option τ)
  | saving (token : τ)

structure Flush (τ κ ι δ : Type) where
  caller : Caller
  found : Found τ
  phase : Phase τ κ ι δ

/-- A flush that resolved, with the point recorded at that moment. -/
structure Flushed (τ : Type) where
  found : Found τ
  recorded : Option τ
deriving DecidableEq

/-- The handler of a change, from the call to its return. -/
inductive Handling (τ : Type) where
  | transforming (token : τ)
  | flushing (token : τ)

inductive CloseReason where
  | closed | invalidated | failed
deriving DecidableEq

/-- One follower with its subscription. The lease is its own, so nothing else writes
the state document. -/
structure Follower (τ κ ι δ : Type) where
  f : Following τ κ ι δ
  /-- `subscription.position`. -/
  position : Option τ := none
  handling : Option (Handling τ) := none
  /-- The stream has stopped. -/
  ended : Option CloseReason := none
  /-- The flushes on `f.chain` whose turn has not come. -/
  waiting : List Caller := []
  running : Option (Flush τ κ ι δ) := none
  /-- A flush rejected, and with it every later one of the chain. -/
  broken : Bool := false
  /-- `resumeToken` of the state document. -/
  recorded : Option τ
  resolved : List (Flushed τ) := []

/-- A follower just opened from the recorded token: `following`, and the interval. -/
def opened (token : τ) : Follower τ κ ι δ :=
  { f := { saved := token, beat := true }, recorded := some token }

namespace Follower

def found (w : Follower τ κ ι δ) : Found τ :=
  { pending := w.f.pending.length, inFlight := w.f.inFlight, done := w.f.done,
    last := w.f.last, position := w.position, recorded := w.recorded }

/-- The handler returns: `drain` moves the position to its event. -/
def handled (w : Follower τ κ ι δ) : Follower τ κ ι δ :=
  match w.handling with
  | some (.transforming token) | some (.flushing token) =>
      { w with handling := none, position := some token }
  | none => w

/-- The handler throws, and there is no `onError`: the subscription stops. -/
def threw (w : Follower τ κ ι δ) : Follower τ κ ι δ :=
  { w with handling := none, ended := some .failed }

/-- The promise of a flush resolves. The handler awaits a full batch's. -/
def resolve (w : Follower τ κ ι δ) (caller : Caller) (found : Found τ) :
    Follower τ κ ι δ :=
  let w := { w with
    running := none, resolved := w.resolved ++ [⟨found, w.recorded⟩] }
  if caller = .batch then w.handled else w

def reject (w : Follower τ κ ι δ) (caller : Caller) : Follower τ κ ι δ :=
  let w := { w with running := none, broken := true }
  if caller = .batch then w.threw else w

def fail (w : Follower τ κ ι δ) (failure : Failure) : Follower τ κ ι δ :=
  { w with f := { w.f with failure := w.f.failure.or (some failure) } }

section
variable [DecidableEq τ]

/-- The end of `flush`, from `idle` on. Tokens are compared as values here and by
reference in the source, where one more write of the same token follows. -/
def record (w : Follower τ κ ι δ) (caller : Caller) (found : Found τ)
    (upTo : Option τ) (idle : Bool) : Follower τ κ ι δ :=
  match upTo.or (if idle then w.position else none) with
  | none => w.resolve caller found
  | some token =>
      if token = w.f.saved then w.resolve caller found
      else { w with running := some { caller, found, phase := .saving token } }

/-- The turn of the next flush of the chain comes: it runs to its first wait. -/
def turn (w : Follower τ κ ι δ) : Follower τ κ ι δ :=
  match w.running, w.waiting with
  | none, caller :: waiting =>
      let found := w.found
      let w := { w with waiting }
      if w.broken || w.f.failure.isSome then w.reject caller
      else if w.f.done then w.resolve caller found
      else
        let cleared := { w with f := { w.f with timer := .unset, pending := [] } }
        if w.f.pending.isEmpty then
          cleared.record caller found w.f.last (w.f.inFlight = 0)
        else
          { cleared with
            running := some { caller, found, phase := .sending w.f.pending w.f.last } }
  | _, _ => w

/-- `send` settles. Nothing is idle after it, as there were entries. -/
def sent (w : Follower τ κ ι δ) (ok : Bool) : Follower τ κ ι δ :=
  match w.running with
  | some { caller, found, phase := .sending _ upTo } =>
      if ok then w.record caller found upTo false
      else (w.fail .sending).reject caller
  | _ => w

/-- `saveState` settles, or rejects with the write done or not. -/
def saved (w : Follower τ κ ι δ) (ok took : Bool) : Follower τ κ ι δ :=
  match w.running with
  | some { caller, found, phase := .saving token } =>
      if ok then
        ({ w with recorded := some token, f := { w.f with saved := token } }).resolve
          caller found
      else
        (({ w with recorded := if took then some token else w.recorded }).fail
          .sending).reject caller
  | _ => w

end

/-- A flush is called: it goes to the end of the chain. -/
def call (w : Follower τ κ ι δ) (caller : Caller) : Follower τ κ ι δ :=
  { w with waiting := w.waiting ++ [caller] }

/-- The stream answers `null`. -/
def read (w : Follower τ κ ι δ) (token : Option τ) : Follower τ κ ι δ :=
  if w.handling.isNone && w.ended.isNone then { w with position := token.or w.position } else w

/-- The stream hands over an event, which `toChange` passes on or not. -/
def event (w : Follower τ κ ι δ) (token : τ) (delivered : Bool) : Follower τ κ ι δ :=
  if w.handling.isNone && w.ended.isNone then
    if !delivered then { w with position := some token }
    else if w.f.failure.isSome then w.threw
    else
      { w with
        handling := some (.transforming token)
        f := { w.f with inFlight := w.f.inFlight + 1 } }
  else w

/-- `entryOf` settles, and `handle` goes on to its return or to a full batch's flush. -/
def transformed [DecidableEq κ] (batchSize : Nat) (w : Follower τ κ ι δ)
    (made : Option (Entry κ ι δ)) : Follower τ κ ι δ :=
  match w.handling with
  | some (.transforming token) =>
      let w := { w with f := { w.f with inFlight := w.f.inFlight - 1 } }
      match made with
      | none => ({ w with f := { w.f with failure := some .following } }).threw
      | some entry =>
          let pending := setEntry w.f.pending entry
          let w := { w with f := { w.f with pending, last := some token } }
          if batchSize ≤ pending.length then
            { w with handling := some (.flushing token) }.call .batch
          else
            ({ w with f := { w.f with timer := w.f.timer.start } }).handled
  | _ => w

/-- `stopFollowing`, once the stream has stopped. -/
def stop (w : Follower τ κ ι δ) : Follower τ κ ι δ :=
  if w.ended.isSome then
    { w with f := { w.f with done := true, timer := .unset, beat := false } }
  else w

end Follower

/-- What happens next. -/
inductive Act (τ κ ι δ : Type) where
  | read (token : Option τ)
  | event (token : τ) (delivered : Bool)
  | transformed (made : Option (Entry κ ι δ))
  | beat | timer | flush
  | turn
  | sent (ok : Bool)
  | saved (ok took : Bool)
  | leaseLost
  /-- The stream stops: closed, invalidated, or failed for good. -/
  | finish (reason : CloseReason)
  | stop
  /-- `clearState` of an invalidated collection, once the chain is through. -/
  | forget

def Follower.step [DecidableEq τ] [DecidableEq κ] (batchSize : Nat) (w : Follower τ κ ι δ) :
    Act τ κ ι δ → Follower τ κ ι δ
  | .read token => w.read token
  | .event token delivered => w.event token delivered
  | .transformed made => w.transformed batchSize made
  | .beat => if w.f.beat then w.call .beat else w
  | .timer =>
      if w.f.timer = .set then { w with f := { w.f with timer := .fired } }.call .timer else w
  | .flush => w.call .explicit
  | .turn => w.turn
  | .sent ok => w.sent ok
  | .saved ok took => w.saved ok took
  | .leaseLost => w.fail .leaseLost
  | .finish reason =>
      if w.handling.isNone && w.ended.isNone then { w with ended := some reason } else w
  | .stop => w.stop
  | .forget =>
      if w.f.done && w.ended == some .invalidated && w.running.isNone &&
          w.f.failure.isNone then
        { w with recorded := none }
      else w

/-- The follower after acts, from a token just recorded. -/
def follow [DecidableEq τ] [DecidableEq κ] (batchSize : Nat) (token : τ)
    (acts : List (Act τ κ ι δ)) : Follower τ κ ι δ :=
  acts.foldl (·.step batchSize) (opened token)

end NxgtData.Search
