import Mathlib.Logic.Function.Basic
import Mathlib.Data.Nat.Basic

/-!
Calls of `withLock` on one key, by any processes. A call's token is its number: no two
calls have one. A command takes effect at any time after it was sent, is answered at any
time after that, and can fail for its caller before or after it took effect; one that failed
before may still take effect later. A work settles as it likes, at any time, so that one that
calls `withLock` itself is a work like any other and what it calls is another call.
-/
namespace NxgtData.Redis.WithLock

/-- What `SET key token PX ttl NX` answers. -/
inductive Reply where
  | ok
  | null
  /-- Redis takes no `ttl` below a millisecond. -/
  | refused
  deriving DecidableEq, Repr

/-- What a call rejects with. -/
inductive Fault where
  /-- `LOCK_HELD` -/
  | held
  /-- `LOCK_LOST` -/
  | lost
  | work
  | command
  deriving DecidableEq, Repr

inductive Phase where
  | absent
  /-- It awaits `take()`: what Redis answered, once the command took effect. -/
  | taking (deadline : Int) (reply : Option Reply)
  | sleeping (deadline : Int)
  | working
  /-- It awaits the release of the `try`. -/
  | releasing (reply : Option Nat)
  /-- It awaits the release of the `catch`. -/
  | givingBack (error : Fault) (reply : Option Nat)
  | resolved
  | rejected (error : Fault)
  deriving DecidableEq, Repr

structure Call where
  ttl : Nat := 30000
  phase : Phase := .absent
  /-- Its `SET` took the key. -/
  taken : Bool := false
  /-- A release of its took effect. -/
  freed : Bool := false
  /-- Commands that failed for the call and may still take effect. -/
  lateSets : Nat := 0
  lateReleases : Nat := 0

structure World where
  now : Nat := 0
  /-- The token under the key, and when it expires. -/
  key : Option (Nat × Nat) := none
  call : Nat → Call := fun _ => {}

inductive Act where
  | tick (time : Nat)
  /-- `withLock`, with what `Date.now()` reads where it runs. -/
  | withLock (i ttl : Nat) (wait clock : Int)
  | set (i : Nat)
  | answer (i : Nat) (clock : Int)
  | wake (i : Nat)
  | settle (i : Nat) (resolves : Bool)
  | release (i : Nat)
  | answered (i : Nat)
  /-- The command that the call awaits fails. -/
  | fail (i : Nat)
  | lateSet (i : Nat)
  | lateRelease (i : Nat)
  deriving DecidableEq, Repr

namespace World

/-- Whose token is under the key. -/
def holder (w : World) : Option Nat :=
  match w.key with
  | none => none
  | some (token, expires) => if w.now < expires then some token else none

def put (w : World) (i : Nat) (c : Call) : World :=
  { w with call := Function.update w.call i c }

/-- `SET key token PX ttl NX` -/
def setNx (token ttl : Nat) (w : World) : World × Reply :=
  if ttl = 0 then (w, .refused)
  else if w.holder = none then ({ w with key := some (token, w.now + ttl) }, .ok)
  else (w, .null)

/-- `RELEASE` -/
def compareDelete (token : Nat) (w : World) : World × Nat :=
  if w.holder = some token then ({ w with key := none }, 1) else (w, 0)

/-- The command of a call takes effect: `taken` notes that it took the key. -/
def set (i : Nat) (w : World) : World :=
  match (w.call i).phase with
  | .taking deadline none =>
      let (w', reply) := w.setNx i (w.call i).ttl
      w'.put i { w.call i with phase := .taking deadline (some reply), taken := reply = .ok }
  | _ => w

def answer (i : Nat) (clock : Int) (w : World) : World :=
  match (w.call i).phase with
  | .taking _ (some .ok) => w.put i { w.call i with phase := .working }
  | .taking deadline (some .null) =>
      if clock < deadline then w.put i { w.call i with phase := .sleeping deadline }
      else w.put i { w.call i with phase := .rejected .held }
  | .taking _ (some .refused) => w.put i { w.call i with phase := .rejected .command }
  | _ => w

def settle (i : Nat) (resolves : Bool) (w : World) : World :=
  match (w.call i).phase with
  | .working =>
      if resolves then w.put i { w.call i with phase := .releasing none }
      else w.put i { w.call i with phase := .givingBack .work none }
  | _ => w

def release (i : Nat) (w : World) : World :=
  match (w.call i).phase with
  | .releasing none =>
      let (w', reply) := w.compareDelete i
      w'.put i { w.call i with phase := .releasing (some reply), freed := true }
  | .givingBack error none =>
      let (w', reply) := w.compareDelete i
      w'.put i { w.call i with phase := .givingBack error (some reply), freed := true }
  | _ => w

def answered (i : Nat) (w : World) : World :=
  match (w.call i).phase with
  | .releasing (some reply) =>
      -- `lostItself`: no second release
      if reply = 0 then w.put i { w.call i with phase := .rejected .lost }
      else w.put i { w.call i with phase := .resolved }
  | .givingBack error (some _) => w.put i { w.call i with phase := .rejected error }
  | _ => w

def fail (i : Nat) (w : World) : World :=
  let c := w.call i
  match c.phase with
  | .taking _ reply =>
      w.put i { c with
        phase := .rejected .command
        lateSets := if reply = none then c.lateSets + 1 else c.lateSets }
  | .releasing reply =>
      w.put i { c with
        phase := .givingBack .command none
        lateReleases := if reply = none then c.lateReleases + 1 else c.lateReleases }
  | .givingBack error reply =>
      w.put i { c with
        phase := .rejected error
        lateReleases := if reply = none then c.lateReleases + 1 else c.lateReleases }
  | _ => w

def lateSet (i : Nat) (w : World) : World :=
  let c := w.call i
  if c.lateSets = 0 then w
  else
    let (w', reply) := w.setNx i c.ttl
    w'.put i { c with lateSets := c.lateSets - 1, taken := c.taken || reply = .ok }

def lateRelease (i : Nat) (w : World) : World :=
  let c := w.call i
  if c.lateReleases = 0 then w
  else (w.compareDelete i).1.put i { c with lateReleases := c.lateReleases - 1, freed := true }

/-- One act. An act that cannot happen changes nothing. -/
def step (a : Act) (w : World) : World :=
  match a with
  | .tick time => { w with now := w.now + time }
  | .withLock i ttl wait clock =>
      if (w.call i).phase = .absent then
        w.put i { ttl, phase := .taking (clock + wait) none }
      else w
  | .set i => w.set i
  | .answer i clock => w.answer i clock
  | .wake i =>
      match (w.call i).phase with
      | .sleeping deadline => w.put i { w.call i with phase := .taking deadline none }
      | _ => w
  | .settle i resolves => w.settle i resolves
  | .release i => w.release i
  | .answered i => w.answered i
  | .fail i => w.fail i
  | .lateSet i => w.lateSet i
  | .lateRelease i => w.lateRelease i

def runFrom (w : World) (acts : List Act) : World := acts.foldl (fun w a => w.step a) w

def run (acts : List Act) : World := runFrom {} acts

/-- Its work's time: its `SET` took the key, and no release of its took effect yet. -/
def Inside (w : World) (i : Nat) : Prop := (w.call i).taken = true ∧ (w.call i).freed = false

end World
end NxgtData.Redis.WithLock
