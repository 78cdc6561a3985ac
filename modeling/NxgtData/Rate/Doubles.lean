import NxgtData.Lib.Binary64
import NxgtData.Rate.Values

/-!
The GCRA script and the check of a rate as they compute, in doubles. `quotient` is the double
that a division gives, of which nothing is assumed here; the divisions that are made are noted.
-/
namespace NxgtData

/-- A value, with the operands of the divisions made for it. -/
structure Traced (α : Type) where
  value : α
  divisions : List (Binary64 × Binary64)

namespace Traced

variable {α β : Type}

instance : Monad Traced where
  pure value := ⟨value, []⟩
  bind x f := ⟨(f x.value).value, x.divisions ++ (f x.value).divisions⟩

/-- The value is `v`, and the operands of every division satisfy `P`. -/
def Gives (P : Binary64 × Binary64 → Prop) (x : Traced α) (v : α) : Prop :=
  x.value = v ∧ ∀ d ∈ x.divisions, P d

variable {P : Binary64 × Binary64 → Prop}

theorem gives_pure (v : α) : (pure v : Traced α).Gives P v :=
  ⟨rfl, fun _ mem => absurd mem List.not_mem_nil⟩

theorem Gives.bind {x : Traced α} {v : α} {f : α → Traced β} {w : β} (h : x.Gives P v)
    (next : (f v).Gives P w) : (x >>= f).Gives P w := by
  obtain ⟨is, small⟩ := h
  subst is
  refine ⟨next.1, fun d mem => ?_⟩
  rcases List.mem_append.mp mem with first | later
  · exact small d first
  · exact next.2 d later

end Traced

namespace Gcra.Doubles

/-- `tonumber` of a text of digits. -/
def tonumber (text : String) : Binary64 := (Decimal.tonumber text : Binary64)

/-- `string.format('%.0f', x)`, as a number and as a text. -/
def printed (x : Binary64) : Nat := (nearest x.val).toNat

def format (x : Binary64) : String := toString (printed x)

/-- `checkRateValues`, its last two checks, of three counts. -/
def Accepts (limit per burst : Count 1) : Prop :=
  ¬ (maxBurstPer : Binary64) < (burst.1 : Binary64) * (per.1 : Binary64) ∧
    ¬ (maxRefill : Binary64) < (burst.1 : Binary64) * (per.1 : Binary64) / (limit.1 : Binary64)

/-- The correction of an estimate `q` of `a / b`, rounded up. -/
def ceildivFrom (q a b : Binary64) : Binary64 :=
  let q := if 0 < q ∧ a ≤ (q - 1) * b then q - 1 else q
  if q * b < a then q + 1 else q

/-- The correction of an estimate `n` of `free / unit`, at most `burst`. -/
def leftFrom (n burst unit free : Binary64) : Binary64 :=
  let n := if burst < n then burst else n
  let n := if 0 < n ∧ free < n * unit then n - 1 else n
  if n < burst ∧ (n + 1) * unit ≤ free then n + 1 else n

section Script
variable (quotient : Binary64 → Binary64 → Binary64)

def divide (a b : Binary64) : Traced Binary64 := ⟨quotient a b, [(a, b)]⟩

def ceildiv (a b : Binary64) : Traced Binary64 := do
  let estimate ← divide quotient a b
  pure (ceildivFrom estimate.ceil a b)

/-- Ticks to milliseconds, rounded up. -/
def ms (limit ticks : Binary64) : Traced Binary64 := do
  let micros ← ceildiv quotient ticks limit
  ceildiv quotient micros 1000

def left (burst unit free : Binary64) : Traced Binary64 :=
  if free ≤ 0 then pure 0
  else do
    let estimate ← divide quotient free unit
    pure (leftFrom estimate.floor burst unit free)

def state (tolerance limit now : Binary64) (stored : Option String) :
    Traced (Option (Binary64 × Binary64)) :=
  match stored.bind fields with
  | none => pure none
  | some (b, a) =>
      if b.utf8ByteSize > 16 ∨ a.utf8ByteSize > 16 then pure none
      else if (safe : Binary64) < tonumber b ∨ tolerance < tonumber a then pure none
      else if now < tonumber b then do
        let refill ← ceildiv quotient tolerance limit
        pure (if refill < tonumber b - now then none else some (tonumber b, tonumber a))
      else pure (some (tonumber b, tonumber a))

/-- `base` and `d`. -/
def levelOf (limit now : Binary64) : Option (Binary64 × Binary64) → Binary64 × Binary64
  | some (seen, ahead) =>
      if now < seen then (seen, ahead)
      else
        let drained := (now - seen) * limit
        (now, if drained < ahead then ahead - drained else 0)
  | none => (now, 0)

/-- The locals of a call; `after` is set where it is allowed. -/
structure Figures where
  unit : Binary64
  tolerance : Binary64
  base : Binary64
  d : Binary64
  lag : Binary64
  free : Binary64
  need : Binary64
  after : Option Binary64

def figures (stored : Option String) (now per limit burst cost : Binary64) : Traced Figures := do
  let unit := per * 1000
  let tolerance := burst * unit
  let read ← state quotient tolerance limit now stored
  let (base, d) := levelOf limit now read
  let lag ← ceildiv quotient (base - now) 1000
  let free := tolerance - d
  let need := cost * unit
  pure { unit, tolerance, base, d, lag, free, need
         after := if free < need then none else some (d + need) }

/-- What the call answers, and the text and `PX` that it stores. -/
def settle (f : Figures) (limit burst cost : Binary64) (write : Bool) :
    Traced (Answer × Option (String × Nat)) :=
  match f.after with
  | none => do
      let remaining ← left quotient burst f.unit f.free
      let reset ← ms quotient limit f.d
      let retry ← ms quotient limit (f.need - f.free)
      pure (⟨false, printed remaining, printed (reset + f.lag), printed (retry + f.lag)⟩, none)
  | some after =>
      if write ∧ 0 < cost then do
        let px ← ms quotient limit after
        let remaining ← left quotient burst f.unit (f.free - f.need)
        let reset ← ms quotient limit after
        pure (⟨true, printed remaining, printed (reset + f.lag), 0⟩,
          some (s!"{format f.base} {format after}", printed (px + f.lag)))
      else do
        let remaining ← left quotient burst f.unit (f.free - f.need)
        let reset ← ms quotient limit after
        pure (⟨true, printed remaining, printed (reset + f.lag), 0⟩, none)

/-- `TIME`, the seconds and the microseconds of it. -/
def clock (now : Nat) : Binary64 :=
  ((now / 1000000 : Nat) : Binary64) * 1000000 + ((now % 1000000 : Nat) : Binary64)

/-- The script; the server's own clock drops the key. -/
def gcra (key : Option Stored) (now : Nat) (rate : Rate) (cost : Nat) (write : Bool) :
    Traced (Answer × Option Stored) := do
  let limit : Binary64 := rate.limit
  let f ← figures quotient (get key (now / 1000)) (clock now) rate.per limit rate.burst cost
  let (answer, set) ← settle quotient f limit rate.burst cost write
  match set with
  | none => pure (answer, key)
  | some (text, px) => pure (answer, some ⟨text, now / 1000 + px⟩)

end Script

end Gcra.Doubles
end NxgtData
