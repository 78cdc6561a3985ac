import NxgtData.Refusal

/-!
Spans of time, names and the longest timer. A span is a whole number of
milliseconds or a text with a unit, which is read as a double, so a fraction is
fine as long as the result is whole but for the noise of the arithmetic.
-/
namespace NxgtData.Queue

def isDigit (u : UInt16) : Bool := 48 ≤ u.toNat && u.toNat ≤ 57

/-- `UNIT_MS`. -/
def unitMs (s : Utf16) : Option Nat :=
  if s = .ofText "ms" then some 1
  else if s = .ofText "s" then some 1000
  else if s = .ofText "m" then some 60000
  else if s = .ofText "h" then some 3600000
  else if s = .ofText "d" then some 86400000
  else none

/-- The match of `PATTERN`: the digits before the dot, those after it, and what
the unit is in milliseconds. -/
def durationPattern (s : Utf16) : Option (Utf16 × Utf16 × Nat) :=
  match s.span isDigit with
  | ([], _) => none
  | (digits, 46 :: rest) =>
      match rest.span isDigit with
      | ([], _) => none
      | (fraction, unit) => (unitMs unit).map fun ms => (digits, fraction, ms)
  | (digits, unit) => (unitMs unit).map fun ms => (digits, [], ms)

def digitsValue (s : Utf16) : Nat := s.foldl (fun n u => 10 * n + (u.toNat - 48)) 0

/-- `Number` of the digits of a match. -/
def patternNumber (digits fraction : Utf16) : ℚ :=
  double (digitsValue (digits ++ fraction) / 10 ^ fraction.length)

/-- `parse`. -/
def parseDuration : Js → Option Num
  | .number (.finite x) => if 0 ≤ x then some (.finite x) else none
  | .number (.infinite negative) => if negative then none else some (.infinite negative)
  | .string s =>
      match durationPattern s with
      | none => none
      | some (digits, fraction, ms) =>
          let exact := double (patternNumber digits fraction * ms)
          let rounded : ℚ := ⌊exact + 1 / 2⌋
          -- The difference of a double and its nearest integer is a double.
          if |exact - rounded| < double (1 / 1000000) then some (.finite rounded) else none
  | _ => none

def durationMs (value : Js) : Option (Count 0) := (parseDuration value).bind (Num.count 0)

/-- A span, when it is at least 1 ms. -/
def atLeastOne (ms : Count 0) : Option (Count 1) :=
  if h : 1 ≤ ms.1 then some ⟨ms, h, ms.2.2⟩ else none

def positiveMs (value : Js) : Option (Count 1) := (durationMs value).bind atLeastOne

def toMs (value : Js) (what : Message) : Except Refusal (Count 0) :=
  match durationMs value with
  | some ms => .ok ms
  | none => .error (.typeError (what ++ [.text " is ", .json value, .text
      "; a duration is a whole number of milliseconds or a string such as '10m'"]))

/-- A whole number of milliseconds is a span as it stands. -/
theorem durationMs_ofNat {n : Nat} (h : n ≤ maxSafeInteger) :
    durationMs (.number (.ofNat n)) = some ⟨n, Nat.zero_le n, h⟩ := by
  have nonneg : (0 : ℚ) ≤ ⟨n, 1, by decide, Nat.coprime_one_right _⟩ := Rat.num_nonneg.mp n.cast_nonneg
  rw [durationMs, Num.ofNat, parseDuration, if_pos nonneg]
  exact Num.count_ofNat ⟨Nat.zero_le n, h⟩

/-- `MAX_TIMER_MS`. -/
def maxTimerMs : Nat := 2147483647

/-- A wait as a timer can hold it. -/
def clampTimeout (ms : Count 1) : { n : Nat // 1 ≤ n ∧ n ≤ maxTimerMs } :=
  ⟨min ms maxTimerMs, le_min ms.2.1 (by decide), min_le_right _ _⟩

/-- `MAX_NAME`. -/
def maxName : Nat := 256

/-- `NAME_RULE`. -/
def nameRule : String := "a string of 1 to 256 characters without braces, which are a hash tag"

def openBrace : UInt16 := 123
def closeBrace : UInt16 := 125
def colon : UInt16 := 58

/-- `isName`, of a string. -/
def isName (s : Utf16) : Bool :=
  0 < s.length && s.length ≤ maxName && openBrace ∉ s && closeBrace ∉ s

/-- A job id or a dedupe key. -/
abbrev Name := { s : Utf16 // isName s = true }

/-- `isName`, with the name. -/
def toName : Js → Option Name
  | .string s => if h : isName s = true then some ⟨s, h⟩ else none
  | _ => none

end NxgtData.Queue
