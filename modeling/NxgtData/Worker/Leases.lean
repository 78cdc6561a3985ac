import Mathlib.Data.List.AList
import NxgtData.Queue.Script

/-!
The leases a worker keeps alive and the ways its runs are aborted. A world is one
worker, the queue's keys it shares with every other, and the renewals it has in
flight; what happens, and when, is any list of acts. The keeper holds one token for
an id; the runs of an id are kept by their tokens, and one may still be going when
the next has begun.
-/
namespace NxgtData.Leases
open Queue

/-- The codes of `WHAT`. -/
inductive Code where
  | timeout
  | canceled
  | leaseLost
  | closed
deriving DecidableEq

/-- A run, with the code its controller was aborted with. -/
structure Run where
  id : String
  token : String
  reason : Option Code := none

inductive Flight where
  | sent
  /-- The script ran, and its reply is on its way. -/
  | answered (lost : List String)
  | settled

structure Renewal where
  entries : List (String × String)
  flight : Flight := .sent

inductive Note where
  | sent (entries : List (String × String))
  /-- What `RENEW` answered to these entries. -/
  | answered (entries : List (String × String)) (lost : List String)
  | canceled (id token : String)
  /-- A step of the run was refused. -/
  | refused (id token : String)

structure World where
  server : Keys
  /-- `held`. The order of a `Map` is left out: nothing reads it. -/
  held : AList (fun _ : String => String) := ∅
  stopped : Bool := false
  renewals : List Renewal := []
  /-- `context.runs`: the runs by id, then by token, each by its number. -/
  registry : AList (fun _ : String => AList (fun _ : String => Nat)) := ∅
  runs : List Run := []
  log : List Note := []

namespace World

/-- The runs registered for an id. -/
def tokens (w : World) (id : String) : AList (fun _ : String => Nat) :=
  (w.registry.lookup id).getD ∅

def beginRun (w : World) (id token : String) : World :=
  { w with
    runs := w.runs ++ [{ id, token }]
    registry := w.registry.insert id ((w.tokens id).insert token w.runs.length) }

def endRun (w : World) (id token : String) : World :=
  match w.registry.lookup id with
  | none => w
  | some tokens =>
      let tokens := tokens.erase token
      { w with registry :=
          if tokens.keys.length = 0 then w.registry.erase id else w.registry.insert id tokens }

/-- `run.controller.abort`, of a run that is not aborted and, with a token, has it. -/
def abortOne (code : Code) (token : Option String) (runs : List Run) (n : Nat) : List Run :=
  match runs[n]? with
  | none => runs
  | some run =>
      if run.reason.isSome then runs
      else if token.any (· ≠ run.token) then runs
      else runs.set n { run with reason := some code }

def abortRun (w : World) (code : Code) (id : String) (token : Option String := none) : World :=
  { w with runs := ((w.tokens id).entries.map Sigma.snd).foldl (abortOne code token) w.runs }

def abortAll (w : World) : World := w.registry.keys.foldl (fun w id => w.abortRun .closed id) w

def abortLost (w : World) (lost : List (String × String)) : World :=
  lost.foldl (fun w e => w.abortRun .leaseLost e.1 (some e.2)) w

/-- `add`. -/
def add (w : World) (id token : String) : World := { w with held := w.held.insert id token }

/-- `delete`. -/
def delete (w : World) (id token : String) : World :=
  if w.held.lookup id = some token then { w with held := w.held.erase id } else w

/-- `stop`. -/
def stop (w : World) : World := { w with stopped := true, held := ∅ }

/-- The interval's callback, which `stop` clears. -/
def beat (w : World) : World :=
  if w.stopped ∨ w.held.keys.length = 0 then w
  else
    let entries := w.held.entries.map fun e => (e.1, e.2)
    { w with renewals := w.renewals ++ [{ entries }], log := w.log ++ [.sent entries] }

def note (w : World) (note : Note) : World := { w with log := w.log ++ [note] }

def settle (w : World) (n : Nat) (flight : Flight) : World :=
  { w with renewals := w.renewals.modify n fun r => { r with flight } }

/-- The entries of a renewal that are lost and held as they were sent. -/
def gone (w : World) (entries : List (String × String)) (lost : List String) :
    List (String × String) :=
  entries.filter fun e => e.1 ∈ lost && w.held.lookup e.1 = some e.2

def erased (held : AList (fun _ : String => String)) (gone : List (String × String)) :
    AList (fun _ : String => String) :=
  gone.foldl (fun held e => held.erase e.1) held

/-- `renew` resolves. -/
def resolve (w : World) (entries : List (String × String)) (lost : List String) : World :=
  if w.stopped then w
  else
    let gone := w.gone entries lost
    { w with held := erased w.held gone }.abortLost gone

end World

inductive Act where
  /-- Any script of the queue, by this worker or another client, at a reading of the
  server's clock. -/
  | call (m : GroupArgs) (c : Timed)
  /-- `runJob` starts its run. -/
  | start (id token : String)
  /-- The run of that number is settled. -/
  | finish (n : Nat)
  | beat
  /-- The server runs a renewal's script. -/
  | serve (n us : Nat)
  /-- A renewal's reply arrives. -/
  | hear (n : Nat)
  /-- A renewal fails, whether or not its script ran. -/
  | fail (n : Nat)
  /-- A message on the queue's events channel. -/
  | event (e : Event)
  /-- A step of the run of that number is refused. -/
  | refuse (n : Nat)
  | timeout (n : Nat)
  | closeRuns
  | stop

/-- One act; one that cannot happen changes nothing. -/
def step (m : GroupArgs) (lease : Nat) (w : World) : Act → World
  | .call m' c => { w with server := (Queue.step m' c w.server).2 }
  | .start id token => (w.beginRun id token).add id token
  | .finish n =>
      match w.runs[n]? with
      | none => w
      | some run => (w.delete run.id run.token).endRun run.id run.token
  | .beat => w.beat
  | .serve n us =>
      match w.renewals[n]? with
      | some ⟨entries, .sent⟩ =>
          match Queue.step m (us, .renew lease entries) w.server with
          | (.lost lost, server) =>
              ({ w with server }.note (.answered entries lost)).settle n (.answered lost)
          | (_, server) => { w with server }
      | _ => w
  | .hear n =>
      match w.renewals[n]? with
      | some ⟨entries, .answered lost⟩ => (w.resolve entries lost).settle n .settled
      | _ => w
  | .fail n => w.settle n .settled
  | .event e =>
      match e with
      | .canceled id (some token) =>
          (w.note (.canceled id token)).abortRun .canceled id (some token)
      | _ => w
  | .refuse n =>
      match w.runs[n]? with
      | none => w
      | some run =>
          (w.note (.refused run.id run.token)).abortRun .leaseLost run.id (some run.token)
  | .timeout n =>
      match w.runs[n]? with
      | none => w
      | some run => w.abortRun .timeout run.id (some run.token)
  | .closeRuns => w.abortAll
  | .stop => w.stop

def run (m : GroupArgs) (lease : Nat) (acts : List Act) (w : World) : World :=
  acts.foldl (step m lease) w

end NxgtData.Leases
