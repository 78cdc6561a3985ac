import NxgtData.Lib.Zone
import NxgtData.Schedule.Cron

/-!
`nextAfter`: the days from an instant's own on, their hours and minutes, and the instants of a
wall time in a zone. Times are in milliseconds; a number that can be NaN is an `Option`.
-/
namespace NxgtData.Schedule
open Calendar Utf16

inductive Fault where
  /-- A date out of the range of `Date`. -/
  | rangeError
  /-- `no occurrence within … days of …`. -/
  | noOccurrence (days : Nat) (t : Int)
  /-- A loop that does not end. -/
  | loops
  deriving DecidableEq

def dayMs : Int := 86400000

/-- The last instant of `Date`. -/
def maxTime : Int := 8640000000000000

def timeClip (ms : Int) : Option Int := if -maxTime ≤ ms ∧ ms ≤ maxTime then some ms else none

/-- `Date.UTC`, whose months count from 0 there: a year below 100 is one of the 1900s. -/
def dateUTC (year : Int) (month : Nat) (day : Int) (hour minute second : Nat) : Option Int :=
  let year := if 0 ≤ year ∧ year ≤ 99 then 1900 + year else year
  timeClip (dayNumber year month day * dayMs + 1000 * (3600 * hour + 60 * minute + second))

structure Wall where
  year : Int
  month : Nat
  day : Nat
  hour : Nat
  minute : Nat
  second : Nat
  deriving DecidableEq

/-- The fields `Intl` prints of a clock's second. A year is one of its era. -/
def wallAt (s : Int) : Wall :=
  let d := date (s / 86400)
  let r := (s % 86400).toNat
  ⟨if 0 < d.year then d.year else 1 - d.year, d.month, d.day, r / 3600, r / 60 % 60, r % 60⟩

def wallOf (ms : Option Int) (zone : Offsets) : Except Fault Wall :=
  match ms.bind timeClip with
  | none => .error .rangeError
  | some ms => .ok (wallAt (zone.clock (ms / 1000)))

def asUtc (wall : Wall) : Option Int :=
  dateUTC wall.year wall.month wall.day wall.hour wall.minute wall.second

/-- `a - b` of numbers. -/
def minus (a b : Option Int) : Option Int := a.bind fun a => b.map fun b => a - b

def offsetAt (ms : Option Int) (zone : Offsets) : Except Fault (Option Int) := do
  let wall ← wallOf ms zone
  .ok (minus (asUtc wall) (ms.map fun ms => ms / 1000 * 1000))

/-- The loop of `transitionBetween`, in at most `fuel` turns. -/
def bisect (offsetAtLo : Option Int) (zone : Offsets) : Nat → Int → Int → Except Fault Int
  | 0, _, _ => .error .loops
  | fuel + 1, low, high =>
      if 1000 < high - low then do
        let mid := low + (high - low) / 2000 * 1000
        let offset ← offsetAt (some mid) zone
        if offset.isSome && offset = offsetAtLo then bisect offsetAtLo zone fuel mid high
        else bisect offsetAtLo zone fuel low mid
      else .ok high

/-- The turns that suffice: each leaves a second less, at least. -/
def transitionBetween (lo hi offsetAtLo : Option Int) (zone : Offsets) : Except Fault (Option Int) :=
  match lo, hi with
  | some lo, some hi =>
      (bisect offsetAtLo zone (((hi - lo) / 1000).toNat + 1) lo hi).map some
  | _, hi => .ok hi

/-- The guesses whose wall clock is the target. -/
def validGuesses (target : Option Int) (zone : Offsets) : List (Option Int) →
    Except Fault (List Int)
  | [] => .ok []
  | offset :: rest => do
      let guess := minus target offset
      let wall ← wallOf guess zone
      let valid ← validGuesses target zone rest
      match guess with
      | some ms => .ok (if (asUtc wall).isSome && asUtc wall = target then ms :: valid else valid)
      | none => .ok valid

def instantsOf (wall : Wall) (zone : Offsets) : Except Fault (Option Int × Bool) := do
  let target := asUtc wall
  let before ← offsetAt (minus target (some dayMs)) zone
  let after ← offsetAt (target.map fun ms => ms + dayMs) zone
  let valid ← validGuesses target zone [before, after]
  match valid with
  | first :: rest => .ok (some (rest.foldl min first), false)
  | [] => do
      let first ← transitionBetween (minus target after) (minus target before) before zone
      .ok (first, true)

/-- `a < b` of numbers. -/
def less (a b : Option Int) : Bool := (a.bind fun a => b.map fun b => decide (a < b)).getD false

/-- The loops over the hours and minutes of a day: the first instant after `t`, if any. -/
def searchTimes (cron : Cron) (zone : Offsets) (t : Int) (startUtc : Option Int) (d : Date) :
    List (Nat × Nat) → Except Fault (Option Int)
  | [] => .ok none
  | (hour, minute) :: rest =>
      if !matchesTime cron hour minute then searchTimes cron zone t startUtc d rest
      else if less (dateUTC d.year d.month d.day hour minute 0) startUtc then
        searchTimes cron zone t startUtc d rest
      else do
        let (first, _) ← instantsOf ⟨d.year, d.month, d.day, hour, minute, 0⟩ zone
        if less (some t) first then .ok first else searchTimes cron zone t startUtc d rest

/-- The hours and minutes of a day, in order. -/
def timesOfDay : List (Nat × Nat) :=
  (List.range 24).flatMap fun hour => (List.range 60).map fun minute => (hour, minute)

def maxDays : Nat := cycleDays + 366

/-- The loop over the days from the start's own on, from the `i`th. -/
def searchDays (cron : Cron) (zone : Offsets) (t : Int) (start : Wall) :
    Nat → Nat → Except Fault Int
  | 0, _ => .error (.noOccurrence maxDays t)
  | fuel + 1, i =>
      match dateUTC start.year start.month (start.day + i) 0 0 0 with
      | none => searchDays cron zone t start fuel (i + 1)
      | some ms =>
          if !matchesDate cron (ms / dayMs) then searchDays cron zone t start fuel (i + 1)
          else do
            let found ← searchTimes cron zone t (asUtc start) (date (ms / dayMs)) timesOfDay
            match found with
            | some first => .ok first
            | none => searchDays cron zone t start fuel (i + 1)

def nextAfter (cron : Cron) (zone : Offsets) (t : Int) : Except Fault Int := do
  let start ← wallOf (some t) zone
  searchDays cron zone t start maxDays 0

end NxgtData.Schedule
