import Mathlib.Algebra.Order.Floor.Ring
import Mathlib.Data.Int.Log
import Mathlib.Data.Rat.Floor
import NxgtData.Lib.Utf16

/-!
JavaScript values as a check of an option meets them, and the numbers among them.
A number is a rational here: every double is one, and 0 and -0 are told apart by
nothing below. `double` rounds to 53 significant bits, ties to even, without the
exponent's bounds.
-/
namespace NxgtData

inductive Num where
  | nan
  | infinite (negative : Bool)
  | finite (x : ℚ)

inductive Js where
  | undefined
  | null
  | boolean (b : Bool)
  | number (n : Num)
  | string (s : Utf16)
  /-- A `Date` by its time value, `none` for an invalid one. -/
  | date (ms : Option Int)
  | function
  | object (get : String → Js)

/-- `Number.MAX_SAFE_INTEGER`. -/
def maxSafeInteger : Nat := 9007199254740991

/-- A safe integer of at least `low`. -/
abbrev Count (low : Nat) := { n : Nat // low ≤ n ∧ n ≤ maxSafeInteger }

namespace Num

/-- `Number.isInteger`, with the integer. -/
def integer : Num → Option Int
  | finite x => if x.den = 1 then some x.num else none
  | _ => none

/-- `Number.isSafeInteger(n) && n >= low`, with the integer. -/
def count (low : Nat) (n : Num) : Option (Count low) :=
  n.integer.bind fun
    | .ofNat k => if h : low ≤ k ∧ k ≤ maxSafeInteger then some ⟨k, h⟩ else none
    | .negSucc _ => none

/-- An integer as a number. -/
def ofNat (n : Nat) : Num := finite ⟨n, 1, by decide, Nat.coprime_one_right _⟩

theorem count_ofNat {low n : Nat} (h : low ≤ n ∧ n ≤ maxSafeInteger) :
    (ofNat n).count low = some ⟨n, h⟩ := dif_pos h

end Num

namespace Js

/-- `value[key]`, where reading a key of what is no object gives `undefined`. -/
def get : Js → String → Js
  | object fields, key => fields key
  | _, _ => undefined

/-- `typeof value === 'object' && value !== null`. -/
def isObject : Js → Bool
  | date _ | object _ => true
  | _ => false

def isUndefined : Js → Bool
  | undefined => true
  | _ => false

/-- `value ?? fallback`. -/
def orElse (fallback : Js) : Js → Js
  | undefined | null => fallback
  | value => value

/-- `Number.isSafeInteger(value) && value >= low`, with the integer. -/
def count (low : Nat) : Js → Option (Count low)
  | number n => n.count low
  | _ => none

end Js

/-- The nearest integer, ties to even. -/
def roundEven (x : ℚ) : Int :=
  let below := ⌊x⌋
  let rest := x - below
  if rest < 1 / 2 then below
  else if 1 / 2 < rest then below + 1
  else if below % 2 = 0 then below
  else below + 1

/-- The double nearest to a rational. -/
def double (x : ℚ) : ℚ :=
  if x = 0 then 0
  else
    let ulp : ℚ := 2 ^ (Int.log 2 |x| - 52)
    roundEven (x / ulp) * ulp

end NxgtData
