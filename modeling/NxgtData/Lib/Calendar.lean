import Mathlib.Data.Int.Init
import Mathlib.Tactic.Ring

/-!
The proleptic Gregorian calendar on days counted from 1970-01-01, as ECMAScript's time values
have it: the day a year begins, the year, month and date of a day, and the day of the week.
Every 400 years are 146097 days, which are whole weeks.
-/
namespace NxgtData.Calendar

def isLeap (y : Int) : Bool := y % 4 = 0 && (y % 100 ≠ 0 || y % 400 = 0)

/-- `DayFromYear`. -/
def dayFromYear (y : Int) : Int :=
  365 * (y - 1970) + (y - 1969) / 4 - (y - 1901) / 100 + (y - 1601) / 400

/-- `YearFromTime`: the last year that begins no later. -/
def yearOf (n : Int) : Int :=
  let y := 1970 + 400 * n / 146097
  if n < dayFromYear y then y - 1 else if dayFromYear (y + 1) ≤ n then y + 1 else y

/-- The day of its year on which a month begins, 1 for January. -/
def monthStart (leap : Bool) : Nat → Nat
  | 1 => 0
  | 2 => 31
  | 3 => cond leap 60 59
  | 4 => cond leap 91 90
  | 5 => cond leap 121 120
  | 6 => cond leap 152 151
  | 7 => cond leap 182 181
  | 8 => cond leap 213 212
  | 9 => cond leap 244 243
  | 10 => cond leap 274 273
  | 11 => cond leap 305 304
  | 12 => cond leap 335 334
  | _ => cond leap 366 365

/-- The last month up to `m` that begins no later than the day. -/
def monthUpTo (leap : Bool) (d : Nat) : Nat → Nat
  | 0 => 1
  | m + 1 => if monthStart leap (m + 1) ≤ d then m + 1 else monthUpTo leap d m

/-- `MonthFromTime`, of a day within its year. -/
def monthOf (leap : Bool) (d : Nat) : Nat := monthUpTo leap d 12

structure Date where
  year : Int
  month : Nat
  day : Nat
  deriving DecidableEq, Repr

/-- The calendar date of a day. -/
def date (n : Int) : Date :=
  let y := yearOf n
  let d := (n - dayFromYear y).toNat
  let m := monthOf (isLeap y) d
  ⟨y, m, d - monthStart (isLeap y) m + 1⟩

/-- `MakeDay`, of a month in its range. -/
def dayNumber (year : Int) (month : Nat) (day : Int) : Int :=
  dayFromYear year + monthStart (isLeap year) month + (day - 1)

/-- `WeekDay`: 0 is Sunday. -/
def weekday (n : Int) : Nat := ((n + 4) % 7).toNat

/-- The days of 400 years. -/
def cycleDays : Nat := 146097

/-- Years are 365.2425 days, within two days. -/
theorem dayFromYear_bounds (y : Int) :
    146097 * (y - 1970) - 800 ≤ 400 * dayFromYear y ∧
      400 * dayFromYear y ≤ 146097 * (y - 1970) + 800 := by
  unfold dayFromYear
  omega

theorem dayFromYear_succ (y : Int) :
    dayFromYear (y + 1) = dayFromYear y + cond (isLeap y) 366 365 := by
  unfold dayFromYear isLeap
  cases h : (decide (y % 4 = 0) && (decide (y % 100 ≠ 0) || decide (y % 400 = 0))) with
  | true =>
      simp only [Bool.and_eq_true, Bool.or_eq_true, decide_eq_true_eq, cond_true] at h ⊢
      omega
  | false =>
      simp only [Bool.and_eq_false_iff, Bool.or_eq_false_iff, decide_eq_false_iff_not, not_not,
        cond_false] at h ⊢
      omega

theorem yearOf_spec (n : Int) : dayFromYear (yearOf n) ≤ n ∧ n < dayFromYear (yearOf n + 1) := by
  unfold yearOf
  dsimp only
  have before := dayFromYear_bounds (1970 + 400 * n / 146097 - 1)
  have after := dayFromYear_bounds (1970 + 400 * n / 146097 + 1 + 1)
  split
  next early =>
    rw [Int.sub_add_cancel]
    omega
  next begun =>
    split
    next late => omega
    next short => omega

theorem dayFromYear_mono {y z : Int} (le : y ≤ z) : dayFromYear y ≤ dayFromYear z := by
  obtain ⟨k, rfl⟩ := Int.le.dest le
  clear le
  induction k with
  | zero => simp
  | succ k ih =>
      have next := dayFromYear_succ (y + k)
      have grows : (0 : Int) ≤ cond (isLeap (y + k)) 366 365 := by
        cases isLeap (y + k) <;> decide
      push_cast
      rw [← add_assoc, next]
      omega

theorem yearOf_unique {n y : Int} (begun : dayFromYear y ≤ n) (ends : n < dayFromYear (y + 1)) :
    yearOf n = y := by
  obtain ⟨low, high⟩ := yearOf_spec n
  rcases lt_trichotomy (yearOf n) y with early | same | late
  · have := dayFromYear_mono (show yearOf n + 1 ≤ y by omega)
    omega
  · exact same
  · have := dayFromYear_mono (show y + 1 ≤ yearOf n by omega)
    omega

/-- How many days a month has. -/
def monthDays (leap : Bool) (m : Nat) : Nat := monthStart leap (m + 1) - monthStart leap m

theorem monthUpTo_spec (leap : Bool) (d : Nat) {m : Nat} (pos : 1 ≤ m) :
    1 ≤ monthUpTo leap d m ∧ monthUpTo leap d m ≤ m ∧
      monthStart leap (monthUpTo leap d m) ≤ d ∧
      (monthUpTo leap d m = m ∨ d < monthStart leap (monthUpTo leap d m + 1)) := by
  induction m with
  | zero => omega
  | succ m ih =>
      unfold monthUpTo
      split
      next begun => exact ⟨by omega, le_rfl, begun, .inl rfl⟩
      next later =>
        cases m with
        | zero => exact absurd (Nat.zero_le d) later
        | succ m =>
            obtain ⟨low, high, begun, last⟩ := ih (by omega)
            refine ⟨low, by omega, begun, .inr ?_⟩
            rcases last with same | ends
            · rw [same]
              omega
            · exact ends

theorem monthOf_spec (leap : Bool) {d : Nat} (within : d < cond leap 366 365) :
    1 ≤ monthOf leap d ∧ monthOf leap d ≤ 12 ∧ monthStart leap (monthOf leap d) ≤ d ∧
      d < monthStart leap (monthOf leap d + 1) := by
  obtain ⟨low, high, begun, last⟩ := monthUpTo_spec leap d (m := 12) (by decide)
  refine ⟨low, high, begun, ?_⟩
  rcases last with same | ends
  · unfold monthOf
    rw [same]
    exact within
  · exact ends

theorem monthStart_le (leap : Bool) {m k : Nat} (pos : 1 ≤ m) (le : m ≤ k) :
    monthStart leap m ≤ monthStart leap k := by
  have next : ∀ k, 1 ≤ k → monthStart leap k ≤ monthStart leap (k + 1) := by
    intro k pos
    rcases k with _ | _ | _ | _ | _ | _ | _ | _ | _ | _ | _ | _ | _ | k
    · omega
    all_goals
      cases leap with
      | true => first | decide | exact le_rfl
      | false => first | decide | exact le_rfl
  induction k with
  | zero => omega
  | succ k ih =>
      rcases Nat.lt_or_ge k m with lt | ge
      · rw [show m = k + 1 by omega]
      · exact (ih ge).trans (next k (by omega))

/-- The day within its year. -/
theorem within_year (n : Int) :
    (n - dayFromYear (yearOf n)).toNat < cond (isLeap (yearOf n)) 366 365 ∧
      ((n - dayFromYear (yearOf n)).toNat : Int) = n - dayFromYear (yearOf n) := by
  obtain ⟨low, high⟩ := yearOf_spec n
  rw [dayFromYear_succ] at high
  cases leap : isLeap (yearOf n) with
  | true =>
      rw [leap, cond_true] at high
      rw [cond_true]
      omega
  | false =>
      rw [leap, cond_false] at high
      rw [cond_false]
      omega

theorem date_month (n : Int) : 1 ≤ (date n).month ∧ (date n).month ≤ 12 :=
  let ⟨low, high, _⟩ := monthOf_spec _ (within_year n).1
  ⟨low, high⟩

/-- A date is one of its month. -/
theorem date_day (n : Int) :
    1 ≤ (date n).day ∧ (date n).day ≤ monthDays (isLeap (date n).year) (date n).month := by
  obtain ⟨-, -, begun, ends⟩ := monthOf_spec _ (within_year n).1
  unfold date monthDays
  dsimp only
  omega

/-- The day of a day's own date. -/
theorem dayNumber_date (n : Int) :
    dayNumber (date n).year (date n).month (date n).day = n := by
  obtain ⟨within, offset⟩ := within_year n
  obtain ⟨-, -, begun, -⟩ := monthOf_spec _ within
  unfold dayNumber date
  dsimp only
  omega

theorem yearOf_mono {n m : Int} (le : n ≤ m) : yearOf n ≤ yearOf m := by
  obtain ⟨begun, -⟩ := yearOf_spec n
  obtain ⟨-, ends⟩ := yearOf_spec m
  by_contra late
  have mono := dayFromYear_mono (show yearOf m + 1 ≤ yearOf n by omega)
  omega

/-- Within a year months come one after another. -/
theorem month_mono {n m : Int} (le : n ≤ m) (year : yearOf n = yearOf m) :
    (date n).month ≤ (date m).month := by
  obtain ⟨-, -, begun, -⟩ := monthOf_spec _ (within_year n).1
  obtain ⟨-, -, -, ends⟩ := monthOf_spec _ (within_year m).1
  have is := (within_year n).2
  have is' := (within_year m).2
  have some := date_month m
  change 1 ≤ monthOf _ _ ∧ _ at some
  change monthOf _ _ ≤ monthOf _ _
  rw [year] at begun is ⊢
  by_contra late
  have mono := monthStart_le (isLeap (yearOf m)) (show 1 ≤ _ + 1 by omega)
    (Nat.not_le.mp late)
  omega

/-! The calendar repeats. -/

theorem dayFromYear_cycle (y : Int) : dayFromYear (y + 400) = dayFromYear y + 146097 := by
  unfold dayFromYear
  omega

theorem isLeap_cycle (y : Int) : isLeap (y + 400) = isLeap y := by
  unfold isLeap
  rw [show (y + 400) % 4 = y % 4 by omega, show (y + 400) % 100 = y % 100 by omega,
    show (y + 400) % 400 = y % 400 by omega]

theorem date_cycle (n : Int) :
    date (n + 146097) = { date n with year := (date n).year + 400 } := by
  have year : yearOf (n + 146097) = yearOf n + 400 := by
    obtain ⟨low, high⟩ := yearOf_spec n
    refine yearOf_unique ?_ ?_
    · rw [dayFromYear_cycle]
      omega
    · rw [add_right_comm, dayFromYear_cycle]
      omega
  unfold date
  dsimp only
  rw [year, isLeap_cycle, dayFromYear_cycle, add_sub_add_right_eq_sub]

theorem weekday_cycle (n : Int) : weekday (n + 146097) = weekday n := by
  unfold weekday
  congr 1
  omega

/-- Any 400 years hold a day with the date and weekday of any other, but for the year. -/
theorem exists_cycle (n start : Int) : ∃ k : Nat, k < 146097 ∧
    (date (start + k)).month = (date n).month ∧ (date (start + k)).day = (date n).day ∧
      weekday (start + k) = weekday n := by
  have moves : ∀ (k : Nat) (n : Int), (date (n + 146097 * k)).month = (date n).month ∧
      (date (n + 146097 * k)).day = (date n).day ∧ weekday (n + 146097 * k) = weekday n := by
    intro k n
    induction k with
    | zero => simp
    | succ k ih =>
        rw [show n + 146097 * ((k + 1 : Nat) : Int) = n + 146097 * k + 146097 by push_cast; ring,
          date_cycle, weekday_cycle]
        exact ih
  let r := (n - start) % 146097
  let c := (n - start) / 146097
  have split : n - start = 146097 * c + r := (Int.mul_ediv_add_emod ..).symm
  have low : 0 ≤ r := Int.emod_nonneg _ (by decide)
  have high : r < 146097 := Int.emod_lt_of_pos _ (by decide)
  refine ⟨r.toNat, by omega, ?_⟩
  rw [Int.toNat_of_nonneg low]
  rcases Int.le_total 0 c with pos | neg
  · have same := moves c.toNat (start + r)
    rw [Int.toNat_of_nonneg pos, show start + r + 146097 * c = n by omega] at same
    exact ⟨same.1.symm, same.2.1.symm, same.2.2.symm⟩
  · have same := moves (-c).toNat n
    rw [Int.toNat_of_nonneg (by omega), show n + 146097 * -c = start + r by
      rw [mul_neg]; omega] at same
    exact same

end NxgtData.Calendar
