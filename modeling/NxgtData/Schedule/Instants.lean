import NxgtData.Schedule.Next

/-!
`instantsOf` answers the first instant of a wall time, in years that `Date.UTC` reads as they
are and away from the ends of `Date`: the offsets a day before and after are those on either
side of the one transition there can be, and the bisection ends at it.
-/
namespace NxgtData.Schedule
open Calendar Utf16

variable {zone : Zone}

theorem ok_bind {ε α β : Type} (a : α) (g : α → Except ε β) : (Except.ok a >>= g) = g a := rfl

theorem minus_some (a b : Int) : minus (some a) (some b) = some (a - b) := rfl

/-- 0100-01-01: from here on `Date.UTC` takes a year as it is. -/
def firstDay : Int := -683003

theorem yearOf_ge {n : Int} (low : firstDay ≤ n) : 100 ≤ yearOf n := by
  by_contra early
  have ends := (yearOf_spec n).2
  have mono := dayFromYear_mono (y := yearOf n + 1) (z := 100) (by omega)
  have first : dayFromYear 100 = firstDay := by decide
  omega

theorem dateUTC_eq {year day : Int} {month hour minute second : Nat} (late : 100 ≤ year) :
    dateUTC year month day hour minute second =
      timeClip (dayNumber year month day * dayMs + 1000 * (3600 * hour + 60 * minute + second)) := by
  unfold dateUTC
  dsimp only
  rw [if_neg (by omega)]

/-- The fields of a second make up the second. -/
theorem asUtc_wallAt {s : Int} (low : 86400 * firstDay ≤ s) (high : 1000 * s ≤ maxTime) :
    asUtc (wallAt s) = some (1000 * s) := by
  have late : 100 ≤ (date (s / 86400)).year := yearOf_ge (by unfold firstDay at *; omega)
  have year : (wallAt s).year = (date (s / 86400)).year :=
    if_pos (show 0 < (date (s / 86400)).year by omega)
  have whole : s / 86400 * dayMs + 1000 * (3600 * ((s % 86400).toNat / 3600 : Nat) +
      60 * ((s % 86400).toNat / 60 % 60 : Nat) + ((s % 86400).toNat % 60 : Nat)) = 1000 * s := by
    unfold dayMs
    omega
  unfold asUtc
  rw [year, dateUTC_eq late]
  unfold wallAt
  dsimp only
  rw [dayNumber_date, whole]
  unfold firstDay at low
  exact if_pos ⟨by unfold maxTime; omega, high⟩

theorem wallOf_eq {ms : Int} (low : -maxTime ≤ ms) (high : ms ≤ maxTime) :
    wallOf (some ms) zone = .ok (wallAt (zone.clock (ms / 1000))) := by
  unfold wallOf timeClip
  rw [Option.bind_some, if_pos ⟨low, high⟩]

/-- The seconds whose clock is one of `Date`, in any zone. -/
structure InRange (s : Int) : Prop where
  low : 86400 * (firstDay + 1) ≤ s
  high : 1000 * (s + 54000) ≤ maxTime

theorem asUtc_clock {s : Int} (inRange : InRange s) :
    asUtc (wallAt (zone.clock s)) = some (1000 * zone.clock s) := by
  have bounds := zone.clock_bounds s
  have low := inRange.low
  have high := inRange.high
  exact asUtc_wallAt (by omega) (by omega)

theorem wallOf_second {s : Int} (inRange : InRange s) :
    wallOf (some (1000 * s)) zone = .ok (wallAt (zone.clock s)) := by
  have low := inRange.low
  have high := inRange.high
  rw [wallOf_eq (by unfold maxTime firstDay at *; omega) (by omega),
    Int.mul_ediv_cancel_left s (by decide)]

theorem offsetAt_eq {s : Int} (inRange : InRange s) :
    offsetAt (some (1000 * s)) zone = .ok (some (1000 * zone.offset s)) := by
  unfold offsetAt
  rw [wallOf_second inRange, ok_bind, asUtc_clock inRange, Option.map_some, minus_some]
  refine congrArg (Except.ok ∘ some) ?_
  unfold Offsets.clock
  omega

/-- The loop keeps the transition between its ends. -/
theorem bisect_eq {b a t : Int} (differ : a ≠ b) {fuel : Nat} {low high : Int}
    (pieces : ∀ s, low ≤ s → s ≤ high → zone.offset s = if s < t then b else a)
    (inRange : ∀ s, low ≤ s → s ≤ high → InRange s) (before : low < t) (after : t ≤ high)
    (enough : high - low < fuel) :
    bisect (some (1000 * b)) zone fuel (1000 * low) (1000 * high) = .ok (1000 * t) := by
  induction fuel generalizing low high with
  | zero => omega
  | succ fuel ih =>
      unfold bisect
      split
      next wide =>
        have mid : 1000 * low + (1000 * high - 1000 * low) / 2000 * 1000 =
            1000 * (low + (high - low) / 2) := by omega
        dsimp only
        rw [mid, offsetAt_eq (inRange _ (by omega) (by omega)),
          pieces (low + (high - low) / 2) (by omega) (by omega)]
        rw [ok_bind]
        by_cases early : low + (high - low) / 2 < t
        · rw [if_pos early, if_pos (by simp)]
          exact ih (fun s begun => pieces s (by omega)) (fun s begun => inRange s (by omega))
            early after (by omega)
        · have other : ¬ (1000 * a = 1000 * b) := by omega
          rw [if_neg early, if_neg (by simp [differ])]
          exact ih (fun s begun ended => pieces s begun (by omega))
            (fun s begun ended => inRange s begun (by omega)) before (by omega) (by omega)
      next narrow =>
        rw [show high = t by omega]

theorem validGuesses_cons {x offset : Int} {rest : List (Option Int)} {valid : List Int}
    (inRange : InRange (x - offset))
    (others : validGuesses (some (1000 * x)) zone rest = .ok valid) :
    validGuesses (some (1000 * x)) zone (some (1000 * offset) :: rest) =
      .ok (if zone.offset (x - offset) = offset then 1000 * (x - offset) :: valid else valid) := by
  have guess : minus (some (1000 * x)) (some (1000 * offset)) = some (1000 * (x - offset)) := by
    rw [minus_some, Int.mul_sub]
  unfold validGuesses
  dsimp only
  rw [guess, wallOf_second inRange, ok_bind, others, ok_bind]
  dsimp only
  rw [asUtc_clock inRange]
  have valid : zone.clock (x - offset) = x ↔ zone.offset (x - offset) = offset := by
    unfold Offsets.clock
    omega
  simp only [Option.isSome_some, Bool.true_and, decide_eq_true_eq, Option.some_inj,
    ← valid, Int.mul_eq_mul_left_iff (show (1000 : Int) ≠ 0 by decide)]

theorem instantsOf_eq {wall : Wall} {x r : Int} (target : asUtc wall = some (1000 * x))
    (inRange : ∀ s, x - 86400 ≤ s → s ≤ x + 86400 → InRange s) (reached : zone.Reached x r) :
    ∃ inGap, instantsOf wall zone = .ok (some (1000 * r), inGap) := by
  obtain ⟨t, window⟩ := zone.window x
  have bounded := zone.bounded (x - 86400)
  have bounded' := zone.bounded (x + 86400)
  generalize isB : zone.offset (x - 86400) = b at window bounded
  generalize isA : zone.offset (x + 86400) = a at window bounded'
  have before : offsetAt (minus (asUtc wall) (some dayMs)) zone = .ok (some (1000 * b)) := by
    have ms : minus (asUtc wall) (some dayMs) = some (1000 * (x - 86400)) := by
      rw [target, minus_some, Int.mul_sub]
      rfl
    rw [ms, offsetAt_eq (inRange _ (by omega) (by omega)), isB]
  have after : offsetAt ((asUtc wall).map fun ms => ms + dayMs) zone = .ok (some (1000 * a)) := by
    have ms : (asUtc wall).map (fun ms => ms + dayMs) = some (1000 * (x + 86400)) := by
      rw [target, Int.mul_add]
      rfl
    rw [ms, offsetAt_eq (inRange _ (by omega) (by omega)), isA]
  have valid := @validGuesses_cons zone _ _ _ _ (inRange (x - b) (by omega) (by omega))
    (@validGuesses_cons _ _ _ [] _ (inRange (x - a) (by omega) (by omega)) rfl)
  have atB := window (x - b) (by omega) (by omega)
  have atA := window (x - a) (by omega) (by omega)
  unfold instantsOf
  dsimp only
  rw [before, ok_bind, after, ok_bind, target, valid, ok_bind]
  by_cases early : x - b < t
  · -- the first pass, before the transition
    have own := Zone.reached_before window bounded.1 bounded.2 early
    obtain rfl := reached.unique own
    rw [if_pos early] at atB
    rw [if_pos atB]
    by_cases also : zone.offset (x - a) = a
    · have le : 1000 * (x - b) ≤ 1000 * (x - a) := by
        split at atA <;> omega
      rw [if_pos also]
      exact ⟨false, congrArg (fun ms => Except.ok (some ms, false)) (min_eq_left le)⟩
    · rw [if_neg also]
      exact ⟨false, rfl⟩
  · rw [if_neg early] at atB
    by_cases late : t ≤ x - a
    · -- past the transition
      have own := Zone.reached_after window bounded'.1 bounded'.2 (by omega) late
      obtain rfl := reached.unique own
      rw [if_neg (by omega)] at atA
      rw [if_pos atA]
      by_cases same : zone.offset (x - b) = b
      · have le : 1000 * (x - a) ≤ 1000 * (x - b) := by omega
        rw [if_pos same]
        exact ⟨false, congrArg (fun ms => Except.ok (some ms, false)) (min_eq_right le)⟩
      · rw [if_neg same]
        exact ⟨false, rfl⟩
    · -- in the gap
      have own := Zone.reached_gap window (by omega) (by omega) (by omega)
      obtain rfl := reached.unique own
      rw [if_pos (by omega)] at atA
      rw [if_neg (by omega), if_neg (by omega), minus_some, minus_some, ← Int.mul_sub,
        ← Int.mul_sub]
      have found := @bisect_eq zone b a r (by omega)
        (((1000 * (x - b) - 1000 * (x - a)) / 1000).toNat + 1) _ _
        (fun s begun ended => window s (by omega) (by omega))
        (fun s begun ended => inRange s (by omega) (by omega))
        (show x - a < r by omega) (show r ≤ x - b by omega)
        (by omega)
      unfold transitionBetween
      dsimp only
      rw [found]
      exact ⟨true, rfl⟩

end NxgtData.Schedule
