import NxgtData.Lib.Binary64
import NxgtData.Lib.Decimal
import NxgtData.Schedule.Instants

/-!
The calendar periods of the retention rules, and what they stand for: the hour, the day, the
month and the year of an instant in UTC, and its week of ISO 8601. Weeks begin on Monday, and
the first one of a year is that of 4 January.
-/
namespace NxgtData.Retention
open Calendar Decimal Schedule

inductive Rule where
  | hourly
  | daily
  | weekly
  | monthly
  | yearly
  deriving DecidableEq, Repr

/-- `CALENDAR`, finest first. -/
def calendar : List Rule := [.hourly, .daily, .weekly, .monthly, .yearly]

/-- `String(n).padStart(2, '0')`. -/
def pad (n : Int) : String := String.ofList (List.leftpad 2 '0' (toString n).toList)

/-! What `Date` reads of a time; months count from 1 here. -/

def getUTCFullYear (t : Int) : Int := (date (t / dayMs)).year

def getUTCMonth (t : Int) : Nat := (date (t / dayMs)).month

def getUTCDate (t : Int) : Nat := (date (t / dayMs)).day

def getUTCHours (t : Int) : Nat := (t % dayMs / 3600000).toNat

def getUTCDay (t : Int) : Nat := weekday (t / dayMs)

def setUTCDate (t : Int) (day : Int) : Option Int :=
  timeClip (dayNumber (getUTCFullYear t) (getUTCMonth t) day * dayMs + t % dayMs)

/-- `Math.ceil((ms / 86_400_000 + 1) / 7)`. -/
def weekFrom (ms : Int) : Int :=
  nearest (((((ms : Int) : Binary64) / 86400000 + 1) / 7).ceil).val

/-- The ISO week of a date. A date past the range of `Date` has no number, and nor has a week whose
year begins before it. -/
def isoWeek (t : Int) : String :=
  let thursday := do
    let day ← dateUTC (getUTCFullYear t) (getUTCMonth t) (getUTCDate t) 0 0 0
    let weekday := if getUTCDay day = 0 then 7 else getUTCDay day
    setUTCDate day (getUTCDate day + 4 - weekday)
  match thursday with
  | none => "NaN-WNaN"
  | some day =>
      let yearStart := dateUTC (getUTCFullYear day) 1 1 0 0 0
      let week := (yearStart.map fun first => pad (weekFrom (day - first))).getD "NaN"
      s!"{getUTCFullYear day}-W{week}"

/-- `periodOf`. -/
def periodOf (rule : Rule) (t : Int) : String :=
  let y := getUTCFullYear t
  let m := pad (getUTCMonth t)
  let d := pad (getUTCDate t)
  match rule with
  | .hourly => s!"{y}-{m}-{d}T{pad (getUTCHours t)}"
  | .daily => s!"{y}-{m}-{d}"
  | .weekly => isoWeek t
  | .monthly => s!"{y}-{m}"
  | .yearly => s!"{y}"

/-! The weeks of ISO 8601, on days. -/

/-- The Monday of a day's week. -/
def mondayOf (n : Int) : Int := n - (n + 3) % 7

/-- The Monday of a year's first week. -/
def weekOne (y : Int) : Int := mondayOf (dayNumber y 1 4)

/-- The day is in week `w` of the week-year `y`. -/
def IsoWeek (n y w : Int) : Prop :=
  1 ≤ w ∧ mondayOf n = weekOne y + 7 * (w - 1) ∧ mondayOf n < weekOne (y + 1)

theorem weekOne_eq (y : Int) : weekOne y = mondayOf (dayFromYear y + 3) := by
  unfold weekOne dayNumber
  congr 1
  simp [monthStart]

theorem weekOne_mono {y z : Int} (le : y ≤ z) : weekOne y ≤ weekOne z := by
  have days := dayFromYear_mono le
  rw [weekOne_eq, weekOne_eq]
  unfold mondayOf
  omega

/-- A week has one number, in one year. -/
theorem IsoWeek.unique {n n' y w y' w' : Int} (same : mondayOf n = mondayOf n')
    (h : IsoWeek n y w) (h' : IsoWeek n' y' w') : y = y' ∧ w = w' := by
  obtain ⟨pos, is, ends⟩ := h
  obtain ⟨pos', is', ends'⟩ := h'
  have year : y = y' := by
    rcases lt_trichotomy y y' with early | same | late
    · have := weekOne_mono (show y + 1 ≤ y' by omega)
      omega
    · exact same
    · have := weekOne_mono (show y' + 1 ≤ y by omega)
      omega
  subst year
  exact ⟨rfl, by omega⟩

theorem IsoWeek.same {n n' y w : Int} (h : IsoWeek n y w) (h' : IsoWeek n' y w) :
    mondayOf n = mondayOf n' := by
  rw [h.2.1, h'.2.1]

/-- The year of a week's Thursday, and how many weeks of it have begun. -/
theorem isoWeek_thursday (n : Int) : IsoWeek n (yearOf (mondayOf n + 3))
    ((mondayOf n + 3 - dayFromYear (yearOf (mondayOf n + 3))) / 7 + 1) := by
  obtain ⟨begun, ends⟩ := yearOf_spec (mondayOf n + 3)
  unfold IsoWeek
  rw [weekOne_eq, weekOne_eq]
  generalize dayFromYear (yearOf (mondayOf n + 3)) = first at begun
  generalize dayFromYear (yearOf (mondayOf n + 3) + 1) = next at ends
  unfold mondayOf at *
  omega

/-! What `isoWeek` computes. -/

/-- A quotient by 7 is rounded to no whole number that it is not. -/
theorem ceil_sevenths {n q : Nat} (above : q * 7 + 1 ≤ n) (below : n ≤ (q + 1) * 7)
    (le : n ≤ 367) : ((n : Binary64) / 7).ceil = ((q + 1 : Nat) : Binary64) := by
  have value : ((n : Binary64) / 7).val = Binary64.round ((n : ℚ) / 7) := by
    have seven : (7 : Binary64).val = 7 := (@Binary64.whole_natCast 7 (by decide)).val
    rw [Binary64.val_div, Binary64.natCast_eq, (Binary64.whole_natCast (by omega)).val, seven,
      Int.cast_natCast]
  have low : (q : ℤ) < ⌈((n : Binary64) / 7).val⌉ := by
    rw [Int.lt_ceil, value]
    have eighth : (2 : ℚ) ^ (-3 : ℤ) = 1 / 8 := by norm_num
    have least : (((q : ℤ) * 8 + 1 : ℤ) : ℚ) * 2 ^ (-3 : ℤ) ≤ (n : ℚ) / 7 := by
      have whole : (q : ℚ) * 7 + 1 ≤ n := by exact_mod_cast above
      rw [eighth]
      push_cast
      linarith
    have kept := Binary64.round_mono least
    rw [Binary64.round_grid (by omega) (by decide)] at kept
    refine lt_of_lt_of_le ?_ kept
    rw [eighth]
    push_cast
    linarith
  have high : ⌈((n : Binary64) / 7).val⌉ ≤ ((q + 1 : Nat) : ℤ) := by
    rw [Int.ceil_le, value]
    have most : (n : ℚ) / 7 ≤ (((q + 1 : Nat) : ℤ) : ℚ) := by
      rw [div_le_iff₀ (by norm_num)]
      exact_mod_cast below
    have kept := Binary64.round_mono most
    rwa [Binary64.round_int (by omega)] at kept
  have is : ⌈((n : Binary64) / 7).val⌉ = ((q + 1 : Nat) : ℤ) := by omega
  exact congrArg (fun z : ℤ => (z : Binary64)) is

/-- The doubles of a day count give the weeks that have begun. -/
theorem weekFrom_days {k : Nat} (le : k ≤ 366) :
    weekFrom (k * dayMs) = ((k / 7 + 1 : Nat) : Int) := by
  have days : ((k * dayMs : Int) : Binary64) / 86400000 = (k : Binary64) :=
    @Binary64.natCast_mul_div k 86400000 (by omega) (by decide) (by decide)
  have next : (k : Binary64) + 1 = ((k + 1 : Nat) : Binary64) :=
    @Binary64.natCast_add k 1 (by omega) (by decide)
  have weeks : (((k + 1 : Nat) : Binary64) / 7).ceil = ((k / 7 + 1 : Nat) : Binary64) :=
    ceil_sevenths (by omega) (by omega) (by omega)
  unfold weekFrom
  rw [days, next, weeks, Binary64.natCast_eq, (Binary64.whole_natCast (by omega)).val, nearest_int]

theorem day_dayMs (n : Int) : n * dayMs / dayMs = n :=
  Int.mul_ediv_cancel n (by decide)

/-- The year of the Thursday of the week. -/
def weekYear (t : Int) : Int := yearOf (mondayOf (t / dayMs) + 3)

/-- A date whose week `isoWeek` counts: `Date.UTC` takes neither its year nor that of its week for
one of 1900 on, and the latter begins within the range of `Date`. -/
structure Weekly (t : Int) : Prop where
  low : -maxTime ≤ t
  high : t ≤ maxTime
  year : getUTCFullYear t < 0 ∨ 100 ≤ getUTCFullYear t
  weekYear : weekYear t < 0 ∨ 100 ≤ weekYear t
  begun : -maxTime ≤ dayFromYear (Retention.weekYear t) * dayMs

theorem dateUTC_year {year : Int} (own : year < 0 ∨ 100 ≤ year) (month : Nat) (day : Int) :
    dateUTC year month day 0 0 0 = timeClip (dayNumber year month day * dayMs) := by
  unfold dateUTC
  dsimp only
  rw [if_neg (by omega)]
  simp

theorem timeClip_day {n : Int} (low : -100000000 ≤ n) (high : n ≤ 100000000) :
    timeClip (n * dayMs) = some (n * dayMs) := by
  unfold timeClip maxTime dayMs
  rw [if_pos (by omega)]

/-- `isoWeek` counts to the Thursday of the week, from the first day of its year. -/
theorem isoWeek_eq {t : Int} (h : Weekly t) : isoWeek t =
    s!"{weekYear t}-W{pad ((mondayOf (t / dayMs) + 3 - dayFromYear (weekYear t)) / 7 + 1)}" := by
  obtain ⟨low, high, own, ownWeek, begins⟩ := h
  unfold weekYear at *
  have bounds : -100000000 ≤ t / dayMs ∧ t / dayMs ≤ 100000000 := by
    unfold maxTime dayMs at *
    omega
  have thursdays : -100000000 ≤ mondayOf (t / dayMs) + 3 ∧
      mondayOf (t / dayMs) + 3 ≤ 100000000 := by
    unfold mondayOf
    omega
  have midnight : dateUTC (getUTCFullYear t) (getUTCMonth t) (getUTCDate t) 0 0 0 =
      some (t / dayMs * dayMs) := by
    rw [dateUTC_year own]
    unfold getUTCFullYear getUTCMonth getUTCDate
    rw [dayNumber_date]
    exact timeClip_day bounds.1 bounds.2
  have offset : mondayOf (t / dayMs) + 3 = t / dayMs + 4 -
      (if weekday (t / dayMs) = 0 then 7 else weekday (t / dayMs) : Nat) := by
    unfold mondayOf weekday
    split <;> omega
  have thursday : setUTCDate (t / dayMs * dayMs) (getUTCDate (t / dayMs * dayMs) + 4 -
      (if getUTCDay (t / dayMs * dayMs) = 0 then 7 else getUTCDay (t / dayMs * dayMs) : Nat)) =
        some ((mondayOf (t / dayMs) + 3) * dayMs) := by
    have own := dayNumber_date (t / dayMs)
    have moved (k : Int) : dayNumber (date (t / dayMs)).year (date (t / dayMs)).month
        ((date (t / dayMs)).day + 4 - k) = t / dayMs + 4 - k := by
      unfold dayNumber at own ⊢
      omega
    unfold setUTCDate getUTCFullYear getUTCMonth getUTCDate getUTCDay
    rw [day_dayMs, moved, ← offset, Int.mul_emod_left, Int.add_zero]
    exact timeClip_day thursdays.1 thursdays.2
  have start : dateUTC (yearOf (mondayOf (t / dayMs) + 3)) 1 1 0 0 0 =
      some (dayFromYear (yearOf (mondayOf (t / dayMs) + 3)) * dayMs) := by
    obtain ⟨begun, -⟩ := yearOf_spec (mondayOf (t / dayMs) + 3)
    have whole : dayNumber (yearOf (mondayOf (t / dayMs) + 3)) 1 1 =
        dayFromYear (yearOf (mondayOf (t / dayMs) + 3)) := by
      simp [dayNumber, monthStart]
    have first : -100000000 ≤ dayFromYear (yearOf (mondayOf (t / dayMs) + 3)) := by
      generalize dayFromYear (yearOf (mondayOf (t / dayMs) + 3)) = first at begins
      unfold maxTime dayMs at begins
      omega
    rw [dateUTC_year ownWeek, whole]
    exact timeClip_day first (by omega)
  have year : getUTCFullYear ((mondayOf (t / dayMs) + 3) * dayMs) =
      yearOf (mondayOf (t / dayMs) + 3) := by
    unfold getUTCFullYear
    rw [day_dayMs]
    rfl
  obtain ⟨k, days, weeks⟩ : ∃ k : Nat, (k : Int) = mondayOf (t / dayMs) + 3 -
      dayFromYear (yearOf (mondayOf (t / dayMs) + 3)) ∧ k ≤ 366 := by
    obtain ⟨within, is⟩ := within_year (mondayOf (t / dayMs) + 3)
    refine ⟨_, is, ?_⟩
    cases leap : isLeap (yearOf (mondayOf (t / dayMs) + 3)) with
    | true =>
        rw [leap, cond_true] at within
        omega
    | false =>
        rw [leap, cond_false] at within
        omega
  have count : (mondayOf (t / dayMs) + 3) * dayMs -
      dayFromYear (yearOf (mondayOf (t / dayMs) + 3)) * dayMs = k * dayMs := by
    rw [days, Int.sub_mul]
  unfold isoWeek
  simp only [midnight, thursday, start, year, count, weekFrom_days weeks, Option.bind_eq_bind,
    Option.bind_some, Option.map_some, Option.getD_some]
  rw [← days]
  rfl

/-- In the years 0 to 99 `isoWeek` gives the week of the same day 1900 years later. -/
theorem isoWeek_early {t t' : Int} (low : 0 ≤ getUTCFullYear t) (high : getUTCFullYear t ≤ 99)
    (year : getUTCFullYear t' = 1900 + getUTCFullYear t) (month : getUTCMonth t' = getUTCMonth t)
    (day : getUTCDate t' = getUTCDate t) : isoWeek t = isoWeek t' := by
  have midnight : dateUTC (getUTCFullYear t) (getUTCMonth t) (getUTCDate t) 0 0 0 =
      dateUTC (getUTCFullYear t') (getUTCMonth t') (getUTCDate t') 0 0 0 := by
    unfold dateUTC
    dsimp only
    rw [if_pos ⟨low, high⟩, if_neg (by omega), year, month, day]
  unfold isoWeek
  rw [midnight]

/-- Four digits write the year. -/
def FourDigit (t : Int) : Prop := 1000 ≤ getUTCFullYear t ∧ getUTCFullYear t ≤ 9999

theorem FourDigit.bounds {t : Int} (h : FourDigit t) :
    -354285 ≤ t / dayMs ∧ t / dayMs < 2932897 := by
  obtain ⟨begun, ends⟩ := yearOf_spec (t / dayMs)
  have low := dayFromYear_mono h.1
  have high := dayFromYear_mono (show getUTCFullYear t + 1 ≤ 10000 from by have := h.2; omega)
  have first : dayFromYear 1000 = -354285 := by decide
  have last : dayFromYear 10000 = 2932897 := by decide
  change dayFromYear 1000 ≤ dayFromYear (yearOf (t / dayMs)) at low
  change dayFromYear (yearOf (t / dayMs) + 1) ≤ dayFromYear 10000 at high
  omega

/-- The Thursday of the week of a year with four digits is of one. -/
theorem FourDigit.weekYear {t : Int} (h : FourDigit t) : 1000 ≤ weekYear t ∧ weekYear t ≤ 9999 := by
  have bounds := h.bounds
  have thursday : -354285 ≤ mondayOf (t / dayMs) + 3 ∧ mondayOf (t / dayMs) + 3 < 2932897 := by
    unfold mondayOf
    omega
  obtain ⟨begun, ends⟩ := yearOf_spec (mondayOf (t / dayMs) + 3)
  have first : dayFromYear 1000 = -354285 := by decide
  have last : dayFromYear 10000 = 2932897 := by decide
  unfold Retention.weekYear
  constructor
  · by_contra early
    have mono := dayFromYear_mono (show yearOf (mondayOf (t / dayMs) + 3) + 1 ≤ 1000 by omega)
    omega
  · by_contra late
    have mono := dayFromYear_mono (show 10000 ≤ yearOf (mondayOf (t / dayMs) + 3) by omega)
    omega

theorem FourDigit.weekly {t : Int} (h : FourDigit t) : Weekly t where
  low := by
    have bounds := h.bounds
    unfold maxTime dayMs at *
    omega
  high := by
    have bounds := h.bounds
    unfold maxTime dayMs at *
    omega
  year := .inr (by have := h.1; omega)
  weekYear := .inr (by have := h.weekYear; omega)
  begun := by
    have mono := dayFromYear_mono h.weekYear.1
    have first : dayFromYear 1000 = -354285 := by decide
    unfold maxTime dayMs
    omega

/-! The texts of the periods. -/

/-- The week of a date, as the standard numbers it. -/
theorem isoWeek_iso {t : Int} (h : Weekly t) : ∃ w : Nat, IsoWeek (t / dayMs) (weekYear t) w ∧
    periodOf .weekly t = s!"{weekYear t}-W{pad w}" := by
  have week := isoWeek_thursday (t / dayMs)
  have text := isoWeek_eq h
  change IsoWeek _ (weekYear t) ((_ - dayFromYear (weekYear t)) / 7 + 1) at week
  generalize (mondayOf (t / dayMs) + 3 - dayFromYear (weekYear t)) / 7 + 1 = w at week text
  obtain ⟨w, rfl⟩ := Int.eq_ofNat_of_zero_le (show 0 ≤ w by have := week.1; omega)
  exact ⟨w, week, text⟩

theorem pad_natCast (n : Nat) : pad n = padStart 2 n := rfl

theorem pad_inj {n m : Nat} (same : pad n = pad m) : n = m := by
  rw [pad_natCast, pad_natCast] at same
  rw [← tonumber_padStart 2 n, ← tonumber_padStart 2 m, same]

/-- A year and what follows a hyphen are read back. -/
theorem year_inj {y y' : Int} {r r' : List Char}
    (same : (toString y).toList ++ '-' :: r = (toString y').toList ++ '-' :: r') :
    y = y' ∧ r = r' := by
  have natural {n n' : Nat} {r r' : List Char}
      (same : (toString n).toList ++ '-' :: r = (toString n').toList ++ '-' :: r') :
      n = n' ∧ r = r' := by
    obtain ⟨digits, rest⟩ := digits_inj (by decide) (fun c mem => isDigit_toString mem)
      (fun c mem => isDigit_toString mem) same
    exact ⟨toString_injective (String.toList_injective digits), rest⟩
  -- The text of a natural number does not begin with a hyphen.
  have signed {n n' : Nat} {r r' : List Char}
      (same : (toString n).toList ++ r = '-' :: ((toString n').toList ++ r')) : False := by
    cases digits : (toString n).toList with
    | nil =>
        rw [toList_toString] at digits
        exact Nat.toDigits_ne_nil digits
    | cons c cs =>
        have digit := @isDigit_toString n c (by rw [digits]; exact List.mem_cons_self)
        rw [digits] at same
        rw [(List.cons.inj same).1] at digit
        cases digit
  have negative (n : Nat) :
      (toString (Int.negSucc n)).toList = '-' :: (toString (n + 1)).toList := by
    simp [ToString.toString, Int.repr]
  cases y with
  | ofNat n =>
      cases y' with
      | ofNat n' =>
          obtain ⟨number, rest⟩ := @natural n n' r r' same
          exact ⟨congrArg Int.ofNat number, rest⟩
      | negSucc n' =>
          rw [negative] at same
          exact (@signed n (n' + 1) ('-' :: r) ('-' :: r') same).elim
  | negSucc n =>
      cases y' with
      | ofNat n' =>
          rw [negative] at same
          exact (@signed n' (n + 1) ('-' :: r') ('-' :: r) same.symm).elim
      | negSucc n' =>
          rw [negative, negative] at same
          obtain ⟨number, rest⟩ := natural (List.cons.inj same).2
          exact ⟨by rw [Nat.succ.inj number], rest⟩

theorem pad_mark_inj {n n' : Nat} {mark : Char} {r r' : List Char} (no : mark.isDigit = false)
    (same : (pad n).toList ++ mark :: r = (pad n').toList ++ mark :: r') : n = n' ∧ r = r' := by
  obtain ⟨digits, rest⟩ := digits_inj no (fun c mem => isDigit_padStart mem)
    (fun c mem => isDigit_padStart mem) same
  exact ⟨pad_inj (String.toList_injective digits), rest⟩

/-- Equal texts of the weeks are of one week. -/
theorem weekText_inj {y z : Int} {w v : Nat} (same : s!"{y}-W{pad w}" = s!"{z}-W{pad v}") :
    y = z ∧ w = v := by
  have text (y : Int) (w : Nat) : (s!"{y}-W{pad w}").toList =
      (toString y).toList ++ '-' :: 'W' :: (pad w).toList := by
    simp [ToString.toString]
  have lists := congrArg String.toList same
  rw [text, text] at lists
  obtain ⟨year, rest⟩ := year_inj lists
  exact ⟨year, pad_inj (String.toList_injective (List.cons.inj rest).2)⟩

theorem monthText_inj {y z : Int} {m n : Nat} (same : s!"{y}-{pad m}" = s!"{z}-{pad n}") :
    y = z ∧ m = n := by
  have text (y : Int) (m : Nat) : (s!"{y}-{pad m}").toList =
      (toString y).toList ++ '-' :: (pad m).toList := by
    simp [ToString.toString]
  have lists := congrArg String.toList same
  rw [text, text] at lists
  obtain ⟨year, rest⟩ := year_inj lists
  exact ⟨year, pad_inj (String.toList_injective rest)⟩

theorem dayText_inj {y z : Int} {m n d e : Nat}
    (same : s!"{y}-{pad m}-{pad d}" = s!"{z}-{pad n}-{pad e}") : y = z ∧ m = n ∧ d = e := by
  have text (y : Int) (m d : Nat) : (s!"{y}-{pad m}-{pad d}").toList =
      (toString y).toList ++ '-' :: ((pad m).toList ++ '-' :: (pad d).toList) := by
    simp [ToString.toString]
  have lists := congrArg String.toList same
  rw [text, text] at lists
  obtain ⟨year, rest⟩ := year_inj lists
  obtain ⟨month, rest⟩ := pad_mark_inj (by decide) rest
  exact ⟨year, month, pad_inj (String.toList_injective rest)⟩

theorem hourText_inj {y z : Int} {m n d e h k : Nat}
    (same : s!"{y}-{pad m}-{pad d}T{pad h}" = s!"{z}-{pad n}-{pad e}T{pad k}") :
    y = z ∧ m = n ∧ d = e ∧ h = k := by
  have text (y : Int) (m d h : Nat) : (s!"{y}-{pad m}-{pad d}T{pad h}").toList =
      (toString y).toList ++ '-' :: ((pad m).toList ++ '-' :: ((pad d).toList ++
        'T' :: (pad h).toList)) := by
    simp [ToString.toString]
  have lists := congrArg String.toList same
  rw [text, text] at lists
  obtain ⟨year, rest⟩ := year_inj lists
  obtain ⟨month, rest⟩ := pad_mark_inj (by decide) rest
  obtain ⟨day, rest⟩ := pad_mark_inj (by decide) rest
  exact ⟨year, month, day, pad_inj (String.toList_injective rest)⟩

theorem weekly_iff {t t' : Int} (h : Weekly t) (h' : Weekly t') :
    periodOf .weekly t = periodOf .weekly t' ↔ mondayOf (t / dayMs) = mondayOf (t' / dayMs) := by
  obtain ⟨w, week, text⟩ := isoWeek_iso h
  obtain ⟨w', week', text'⟩ := isoWeek_iso h'
  rw [text, text']
  constructor
  · intro same
    obtain ⟨year, number⟩ := weekText_inj same
    rw [year, number] at week
    exact week.same week'
  · intro same
    obtain ⟨year, number⟩ := week.unique same week'
    have number : w = w' := by omega
    rw [year, number]

/-! What a period is of an instant, as a number that grows with it. -/

/-- The number of the period. -/
def Rule.number (rule : Rule) (t : Int) : Int :=
  match rule with
  | .hourly => t / 3600000
  | .daily => t / dayMs
  | .weekly => mondayOf (t / dayMs)
  | .monthly => 12 * getUTCFullYear t + getUTCMonth t
  | .yearly => getUTCFullYear t

theorem Rule.number_mono (rule : Rule) {t t' : Int} (le : t ≤ t') :
    rule.number t ≤ rule.number t' := by
  have days : t / dayMs ≤ t' / dayMs := by
    unfold dayMs
    omega
  cases rule with
  | hourly =>
      unfold Rule.number
      dsimp only
      omega
  | daily => exact days
  | weekly =>
      unfold Rule.number mondayOf
      dsimp only
      omega
  | monthly =>
      have years := yearOf_mono days
      have low := date_month (t / dayMs)
      have low' := date_month (t' / dayMs)
      change 12 * yearOf (t / dayMs) + ((date (t / dayMs)).month : Int) ≤
        12 * yearOf (t' / dayMs) + ((date (t' / dayMs)).month : Int)
      rcases years.lt_or_eq with less | same
      · omega
      · have months := month_mono days same
        omega
  | yearly => exact yearOf_mono days

/-- The dates that the rule tells apart by their periods. -/
def Rule.Reads (rule : Rule) (t : Int) : Prop := rule = .weekly → Weekly t

theorem FourDigit.reads {t : Int} (h : FourDigit t) (rule : Rule) : rule.Reads t :=
  fun _ => h.weekly

/-- A text is that of its period. -/
theorem periodOf_iff (rule : Rule) {t t' : Int} (h : rule.Reads t) (h' : rule.Reads t') :
    periodOf rule t = periodOf rule t' ↔ rule.number t = rule.number t' := by
  have months := date_month (t / dayMs)
  have months' := date_month (t' / dayMs)
  have own := dayNumber_date (t / dayMs)
  have own' := dayNumber_date (t' / dayMs)
  change 1 ≤ getUTCMonth t ∧ getUTCMonth t ≤ 12 at months
  change 1 ≤ getUTCMonth t' ∧ getUTCMonth t' ≤ 12 at months'
  change dayNumber (getUTCFullYear t) (getUTCMonth t) (getUTCDate t) = _ at own
  change dayNumber (getUTCFullYear t') (getUTCMonth t') (getUTCDate t') = _ at own'
  cases rule with
  | hourly =>
      have hours : t / 3600000 = t / dayMs * 24 + getUTCHours t := by
        unfold getUTCHours dayMs
        omega
      have hours' : t' / 3600000 = t' / dayMs * 24 + getUTCHours t' := by
        unfold getUTCHours dayMs
        omega
      have fewer : getUTCHours t < 24 ∧ getUTCHours t' < 24 := by
        unfold getUTCHours dayMs
        omega
      unfold periodOf Rule.number
      dsimp only
      constructor
      · intro same
        obtain ⟨year, month, day, hour⟩ := hourText_inj same
        rw [year, month, day, own'] at own
        omega
      · intro same
        have days : t / dayMs = t' / dayMs := by omega
        have hour : getUTCHours t = getUTCHours t' := by omega
        rw [hour, getUTCFullYear, getUTCFullYear, getUTCMonth, getUTCMonth, getUTCDate,
          getUTCDate, days]
  | daily =>
      unfold periodOf Rule.number
      dsimp only
      constructor
      · intro same
        obtain ⟨year, month, day⟩ := dayText_inj same
        rw [year, month, day, own'] at own
        exact own.symm
      · intro days
        rw [getUTCFullYear, getUTCFullYear, getUTCMonth, getUTCMonth, getUTCDate, getUTCDate, days]
  | weekly => exact weekly_iff (h rfl) (h' rfl)
  | monthly =>
      unfold periodOf Rule.number
      dsimp only
      constructor
      · intro same
        obtain ⟨year, month⟩ := monthText_inj same
        rw [year, month]
      · intro same
        have year : getUTCFullYear t = getUTCFullYear t' := by omega
        have month : getUTCMonth t = getUTCMonth t' := by omega
        rw [year, month]
  | yearly =>
      unfold periodOf Rule.number
      dsimp only
      constructor
      · intro same
        have lists := congrArg (fun text => text.toList ++ ['-']) same
        exact (year_inj lists).1
      · intro same
        rw [same]

end NxgtData.Retention
