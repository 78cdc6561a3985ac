import Mathlib.Data.Finset.Basic
import NxgtData.Lib.Calendar
import NxgtData.Refusal

/-!
`parseCron`: a five-field cron, split at spaces, commas, `/` and `-`, with the refusals it
throws; and the days and times a cron matches. A text is in UTF-16 units, as JavaScript
splits it.
-/
namespace NxgtData.Schedule
open Calendar Utf16

/-- A parsed cron: the values each field allows, and whether a day field begins with a star. -/
structure Cron where
  minutes : Finset Nat
  hours : Finset Nat
  days : Finset Nat
  months : Finset Nat
  weekdays : Finset Nat
  daysStar : Bool
  weekdaysStar : Bool
  deriving DecidableEq

structure Field where
  name : String
  min : Nat
  max : Nat
  names : Option (List Utf16) := none
  nameBase : Nat := 0

/-- `MONTHS`. -/
def monthNames : List Utf16 :=
  ["jan", "feb", "mar", "apr", "may", "jun", "jul", "aug", "sep", "oct", "nov", "dec"].map
    Utf16.ofText

/-- `WEEKDAYS`. -/
def weekdayNames : List Utf16 :=
  ["sun", "mon", "tue", "wed", "thu", "fri", "sat"].map Utf16.ofText

namespace Field

def minute : Field := { name := "minute", min := 0, max := 59 }

def hour : Field := { name := "hour", min := 0, max := 23 }

def dayOfMonth : Field := { name := "day of month", min := 1, max := 31 }

def month : Field :=
  { name := "month", min := 1, max := 12, names := some monthNames, nameBase := 1 }

def dayOfWeek : Field :=
  { name := "day of week", min := 0, max := 7, names := some weekdayNames, nameBase := 0 }

/-- The last value a star reaches: it never reaches 7, which is Sunday once more. -/
def top (f : Field) : Nat := if f.max = 7 then 6 else f.max

end Field

/-- `cron <field>: <reason>`. -/
def refusal (f : Field) (reason : Message) : Message := .text ("cron " ++ f.name ++ ": ") :: reason

def isDigit (u : UInt16) : Bool := 48 ≤ u.toNat && u.toNat ≤ 57

def star : UInt16 := 42

def comma : UInt16 := 44

def dash : UInt16 := 45

def slash : UInt16 := 47

/-- `split(/\s+/)`: the last space of a run ends a part. -/
def splitSpaces : Utf16 → List Utf16
  | [] => [[]]
  | u :: s =>
      if isSpace u then
        match s with
        | [] => [[], []]
        | v :: _ => if isSpace v then splitSpaces s else [] :: splitSpaces s
      else (splitSpaces s).modifyHead (u :: ·)

/-- `toLowerCase`, but for the letters past ASCII: none of them becomes a letter that a name
has, alone. -/
def toLowerCase (s : Utf16) : Utf16 :=
  s.map fun u => if 65 ≤ u.toNat ∧ u.toNat ≤ 90 then u + 32 else u

/-- `Number` of digits. Past 2^53 it rounds, which no bound of a field tells apart. -/
def digits (s : Utf16) : Nat := s.foldl (fun n u => 10 * n + (u.toNat - 48)) 0

def number (text : Utf16) (f : Field) (what : String) : Except Message Nat :=
  if text ≠ [] && text.all isDigit then .ok (digits text)
  else .error (refusal f (quoted text ++
    [.text (" is not " ++ what ++ if f.names.isSome then " or a name" else "")]))

/-- The place of a name, or the number. -/
def nameOrNumber (text : Utf16) (f : Field) : Except Message Nat :=
  match f.names.bind (·.idxOf? (toLowerCase text)) with
  | some index => .ok (index + f.nameBase)
  | none => number text f "a value"

def value (text : Utf16) (f : Field) : Except Message Nat := do
  let v ← nameOrNumber text f
  if v < f.min || f.max < v then
    .error (refusal f [shown v, .text s!" is out of range {f.min}-{f.max}"])
  else .ok v

def bounds (range : Utf16) (stepped : Bool) (f : Field) : Except Message (Nat × Nat) :=
  if range = [star] then .ok (f.min, f.top)
  else
    match range.splitOn dash with
    | [a] => do
        let first ← value a f
        .ok (first, if stepped then f.top else first)
    | [a, b] => do
        let first ← value a f
        let last ← value b f
        if last < first then
          .error (refusal f [.text "range ", .units range, .text " is reversed"])
        else .ok (first, last)
    | _ => .error (refusal f (quoted range ++ [.text " is not a value or a range"]))

/-- `for (let v = from; v <= to; v += stride) values.add(v)`, in at most `fuel` turns. -/
def addSteps (last stride : Nat) : Nat → Nat → Finset Nat → Finset Nat
  | 0, _, values => values
  | fuel + 1, v, values =>
      if v ≤ last then addSteps last stride fuel (v + stride) (insert v values) else values

/-- One turn of `parseField`. -/
def parseItem (f : Field) (item : Utf16) (values : Finset Nat) : Except Message (Finset Nat) :=
  match item.splitOn slash with
  | [range] => do
      let (first, last) ← bounds range false f
      .ok (addSteps last 1 (last + 1) first values)
  | [range, step] => do
      let stride ← number step f "a step"
      if stride < 1 then
        .error (refusal f [.text "step ", shown stride, .text " must be at least 1"])
      else
        let (first, last) ← bounds range true f
        .ok (addSteps last stride (last + 1) first values)
  | _ => .error (refusal f (quoted item ++ [.text " has more than one \"/\""]))

def parseItems (f : Field) : List Utf16 → Finset Nat → Except Message (Finset Nat)
  | [], values => .ok values
  | item :: rest, values => do
      let values ← parseItem f item values
      parseItems f rest values

def parseField (text : Utf16) (f : Field) : Except Message (Finset Nat) :=
  parseItems f (text.splitOn comma) ∅

/-- Whether a day matches: in Vixie cron's way either day field will do when neither begins
with a star. -/
def matchesDay (cron : Cron) (month dayOfMonth dayOfWeek : Nat) : Bool :=
  if month ∉ cron.months then false
  else
    let day := decide (dayOfMonth ∈ cron.days)
    let week := decide (dayOfWeek ∈ cron.weekdays)
    if cron.daysStar || cron.weekdaysStar then day && week else day || week

def matchesTime (cron : Cron) (hour minute : Nat) : Bool :=
  decide (hour ∈ cron.hours) && decide (minute ∈ cron.minutes)

/-- Whether the cron matches a day since 1970. -/
def matchesDate (cron : Cron) (n : Int) : Bool :=
  matchesDay cron (date n).month (date n).day (weekday n)

/-- The walk of `checkReachable` over the next `fuel` days. -/
def reaches (cron : Cron) : Nat → Int → Bool
  | 0, _ => false
  | fuel + 1, n => if matchesDate cron n then true else reaches cron fuel (n + 1)

/-- 2000-01-01. -/
def cycleStart : Int := 10957

def checkReachable (cron : Cron) : Except Message Cron :=
  if reaches cron cycleDays cycleStart then .ok cron
  else .error [.text ("cron day of month and day of week: " ++
    "no day of a 400-year cycle matches, so it would never match")]

/-- 7 is folded into 0. -/
def foldSunday (weekdays : Finset Nat) : Finset Nat :=
  if 7 ∈ weekdays then insert 0 (weekdays.erase 7) else weekdays

def parseCron (text : Utf16) : Except Message Cron :=
  match splitSpaces (trim text) with
  | [p0, p1, p2, p3, p4] => do
      let minutes ← parseField p0 .minute
      let hours ← parseField p1 .hour
      let days ← parseField p2 .dayOfMonth
      let months ← parseField p3 .month
      let weekdays ← parseField p4 .dayOfWeek
      checkReachable {
        minutes, hours, days, months
        weekdays := foldSunday weekdays
        daysStar := p2.head? = some star
        weekdaysStar := p4.head? = some star }
  | parts => .error [.text "cron needs five fields (minute hour day-of-month month day-of-week), got ",
      shown parts.length]

end NxgtData.Schedule
