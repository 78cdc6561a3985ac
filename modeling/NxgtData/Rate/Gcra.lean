import NxgtData.Lib.Decimal

/-!
The GCRA script over one key: the generic cell rate algorithm in exact integers,
with the stored text `"<base> <ahead>"`, its trust check and the one-step
correction of each division. Divisions take the exact quotient as their
estimate, which the correction then leaves alone.
-/
namespace NxgtData.Gcra
open Decimal

/-- A rate, resolved: `limit` requests per `per` milliseconds, `burst` at once. -/
structure Rate where
  limit : Nat
  per : Nat
  burst : Nat
  deriving DecidableEq, Repr

/-- A stored text and the server's ms past which its `PX` drops it. -/
structure Stored where
  text : String
  expires : Nat
  deriving DecidableEq, Repr

structure Answer where
  allowed : Bool
  remaining : Nat
  resetAfter : Nat
  retryAfter : Nat
  deriving DecidableEq, Repr

/-- `Number.MAX_SAFE_INTEGER`. -/
def safe : Nat := 9007199254740991

/-- The correction of an estimate `q` of `a / b`, rounded up. -/
def ceildivFrom (q a b : Nat) : Nat :=
  let q := if q > 0 ∧ (q - 1) * b ≥ a then q - 1 else q
  if q * b < a then q + 1 else q

def ceildiv (a b : Nat) : Nat := ceildivFrom ((a + b - 1) / b) a b

/-- Ticks to milliseconds, rounded up. -/
def ms (limit ticks : Nat) : Nat := ceildiv (ceildiv ticks limit) 1000

/-- The correction of an estimate `n` of `free / unit`, at most `burst`. -/
def leftFrom (n burst unit free : Nat) : Nat :=
  let n := if n > burst then burst else n
  let n := if n > 0 ∧ n * unit > free then n - 1 else n
  if n < burst ∧ (n + 1) * unit ≤ free then n + 1 else n

/-- The most requests of cost 1 that fit in `free` ticks. -/
def left (burst unit free : Nat) : Nat :=
  if free = 0 then 0 else leftFrom (free / unit) burst unit free

/-- `string.match(stored, '^(%d+) (%d+)$')`. -/
def fields (text : String) : Option (String × String) :=
  match text.toList.span (· ≠ ' ') with
  | (b, _ :: a) =>
      if whole (String.ofList b) ∧ whole (String.ofList a) then
        some (String.ofList b, String.ofList a)
      else none
  | _ => none

/-- A stored state, only if the script could have written it. -/
def state (rate : Rate) (now : Nat) (stored : Option String) : Option (Nat × Nat) :=
  match stored.bind fields with
  | none => none
  | some (b, a) =>
      let tolerance := rate.burst * (rate.per * 1000)
      if b.utf8ByteSize > 16 ∨ a.utf8ByteSize > 16 then none
      else if tonumber b > safe ∨ tonumber a > tolerance then none
      else if tonumber b > now ∧ tonumber b - now > ceildiv tolerance rate.limit then none
      else some (tonumber b, tonumber a)

/-- `GET`: a key past its `PX` is gone. -/
def get (key : Option Stored) (nowMs : Nat) : Option String :=
  key.bind fun s => if s.expires < nowMs then none else some s.text

/-- `gcra(key, now, per, limit, burst, cost, write)`, `now` in microseconds. -/
def gcra (key : Option Stored) (now : Nat) (rate : Rate) (cost : Nat) (write : Bool) :
    Answer × Option Stored :=
  let unit := rate.per * 1000
  let tolerance := rate.burst * unit
  let (base, d) :=
    match state rate now (get key (now / 1000)) with
    | some (seen, ahead) =>
        if seen > now then (seen, ahead)
        else
          let drained := (now - seen) * rate.limit
          (now, if drained < ahead then ahead - drained else 0)
    | none => (now, 0)
  let lag := ceildiv (base - now) 1000
  let free := tolerance - d
  let need := cost * unit
  if need > free then
    (⟨false, left rate.burst unit free, ms rate.limit d + lag, ms rate.limit (need - free) + lag⟩, key)
  else
    let after := d + need
    let key :=
      if write ∧ cost > 0 then
        some ⟨s!"{base} {after}", now / 1000 + (ms rate.limit after + lag)⟩
      else key
    (⟨true, left rate.burst unit (free - need), ms rate.limit after + lag, 0⟩, key)

end NxgtData.Gcra
