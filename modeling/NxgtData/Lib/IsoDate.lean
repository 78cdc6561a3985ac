import NxgtData.Lib.Calendar
import NxgtData.Lib.FixedWidth

/-!
Instants as `Date` writes them in the ISO form, and reads them back. Times are milliseconds, and
come in the order of what is read of them: the date, then the time of day.
-/
namespace NxgtData.IsoDate
open Calendar Decimal FixedWidth

/-- What is read of a time, in UTC; months count from 1. -/
structure Parts where
  year : Int
  month : Nat
  day : Nat
  hour : Nat
  minute : Nat
  second : Nat
  milli : Nat
  deriving DecidableEq, Repr

def partsOf (t : Int) : Parts :=
  let d := date (t / 86400000)
  let ms := (t % 86400000).toNat
  ⟨d.year, d.month, d.day, ms / 3600000, ms / 60000 % 60, ms / 1000 % 60, ms % 1000⟩

def Parts.time (p : Parts) : Int :=
  dayNumber p.year p.month p.day * 86400000 +
    (3600000 * p.hour + 60000 * p.minute + 1000 * p.second + p.milli : Nat)

theorem time_partsOf (t : Int) : (partsOf t).time = t := by
  unfold Parts.time partsOf
  dsimp only
  rw [dayNumber_date]
  omega

/-- The last instant of `Date`. -/
def last : Int := 8640000000000000

/-- What `Date` reads: a day of a month of so many, with a time of its day or the end of it. -/
def Parts.Valid (p : Parts) (days : Nat) : Prop :=
  1 ≤ p.month ∧ p.month ≤ 12 ∧ 1 ≤ p.day ∧ p.day ≤ days ∧
    (p.hour ≤ 23 ∧ p.minute ≤ 59 ∧ p.second ≤ 59 ∨
      p.hour = 24 ∧ p.minute = 0 ∧ p.second = 0 ∧ p.milli = 0) ∧
    -last ≤ p.time ∧ p.time ≤ last

instance (p : Parts) (days : Nat) : Decidable (p.Valid days) :=
  inferInstanceAs (Decidable (_ ∧ _))

/-- The days of its month. -/
def Parts.days (p : Parts) : Nat := monthDays (isLeap p.year) p.month

theorem days_partsOf (t : Int) : (partsOf t).day ≤ (partsOf t).days ∧ (partsOf t).days ≤ 31 := by
  obtain ⟨-, twelfth⟩ := date_month (t / 86400000)
  have few : ∀ leap, ∀ m < 13, monthDays leap m ≤ 31 := by decide
  exact ⟨(date_day _).2, few _ _ (Nat.lt_succ_of_le twelfth)⟩

theorem partsOf_valid {t : Int} (low : -last ≤ t) (high : t ≤ last) {days : Nat}
    (long : (partsOf t).days ≤ days) : (partsOf t).Valid days := by
  obtain ⟨first, twelfth⟩ := date_month (t / 86400000)
  obtain ⟨begun, -⟩ := date_day (t / 86400000)
  refine ⟨first, twelfth, begun, (days_partsOf t).1.trans long, .inl ?_, ?_⟩
  · unfold partsOf
    dsimp only
    omega
  · rw [time_partsOf]
    exact ⟨low, high⟩

/-- Every part but the year fits in its digits. -/
structure Parts.Fits (p : Parts) : Prop where
  month : p.month < 10 ^ 2
  day : p.day < 10 ^ 2
  hour : p.hour < 10 ^ 2
  minute : p.minute < 10 ^ 2
  second : p.second < 10 ^ 2
  milli : p.milli < 10 ^ 3

theorem partsOf_fits (t : Int) : (partsOf t).Fits := by
  obtain ⟨-, twelfth⟩ := date_month (t / 86400000)
  obtain ⟨ends, few⟩ := days_partsOf t
  have short := ends.trans few
  unfold partsOf at short ⊢
  constructor <;> dsimp only at short ⊢ <;> omega

/-- A part that is less, after parts that are the same. -/
def Parts.Before (p q : Parts) : Prop :=
  p.year < q.year ∨ p.year = q.year ∧ (p.month < q.month ∨ p.month = q.month ∧
    (p.day < q.day ∨ p.day = q.day ∧ (p.hour < q.hour ∨ p.hour = q.hour ∧
      (p.minute < q.minute ∨ p.minute = q.minute ∧
        (p.second < q.second ∨ p.second = q.second ∧ p.milli < q.milli)))))

theorem partsOf_before {t u : Int} (lt : t < u) : (partsOf t).Before (partsOf u) := by
  have days : t / 86400000 ≤ u / 86400000 := by omega
  rcases (yearOf_mono days).lt_or_eq with less | year
  · exact .inl less
  refine .inr ⟨year, ?_⟩
  rcases (month_mono days year).lt_or_eq with less | month
  · exact .inl less
  refine .inr ⟨month, ?_⟩
  have here := dayNumber_date (t / 86400000)
  have there := dayNumber_date (u / 86400000)
  have same : (date (t / 86400000)).year = (date (u / 86400000)).year := year
  rw [same, month] at here
  unfold dayNumber at here there
  unfold partsOf
  dsimp only
  omega

/-- A year of four digits as they are, any other with a sign and six. -/
def yearText (year : Int) : String :=
  if 0 ≤ year ∧ year ≤ 9999 then padStart 4 year.toNat
  else (if year < 0 then "-" else "+") ++ padStart 6 year.natAbs

def Parts.text (p : Parts) : String :=
  yearText p.year ++ "-" ++ padStart 2 p.month ++ "-" ++ padStart 2 p.day ++ "T" ++
    padStart 2 p.hour ++ ":" ++ padStart 2 p.minute ++ ":" ++ padStart 2 p.second ++ "." ++
    padStart 3 p.milli ++ "Z"

/-- `new Date(t).toISOString()` -/
def toISOString (t : Int) : String := (partsOf t).text

/-- The parts of a text in the ISO form, by their places after the year. -/
def readParts (cs : List Char) : Parts :=
  let number (i n : Nat) := Nat.ofDigitChars 10 ((cs.drop i).take n) 0
  let year : Int := match cs.head? with
    | some '-' => -(number 1 6)
    | some '+' => number 1 6
    | _ => number 0 4
  let rest := if cs.head? = some '-' ∨ cs.head? = some '+' then 7 else 4
  ⟨year, number (rest + 1) 2, number (rest + 4) 2, number (rest + 7) 2, number (rest + 10) 2,
    number (rest + 13) 2, number (rest + 16) 3⟩

/-- The instant that `toISOString` writes as this text, if any: `Date.parse` gives it. -/
def ofISOString (s : String) : Option Int :=
  let t := (readParts s.toList).time
  if -last ≤ t ∧ t ≤ last ∧ toISOString t = s then some t else none

/-- The year of an instant of `Date` has six digits. -/
theorem year_bounds {t : Int} (low : -last ≤ t) (high : t ≤ last) :
    -271821 ≤ (partsOf t).year ∧ (partsOf t).year ≤ 275760 := by
  have first : yearOf (-last / 86400000) = -271821 := by decide
  have final : yearOf (last / 86400000) = 275760 := by decide
  unfold last at *
  constructor
  · rw [← first]
    exact yearOf_mono (by omega)
  · rw [← final]
    exact yearOf_mono (by omega)

/-- What follows the year. -/
def tail (p : Parts) : List Char :=
  '-' :: (fixed 10 2 p.month ++ ('-' :: (fixed 10 2 p.day ++ ('T' :: (fixed 10 2 p.hour ++
    (':' :: (fixed 10 2 p.minute ++ (':' :: (fixed 10 2 p.second ++
      ('.' :: (fixed 10 3 p.milli ++ ['Z'])))))))))))

theorem toList_text (p : Parts) : p.text.toList = (yearText p.year).toList ++ tail p := by
  unfold Parts.text tail
  simp [toList_padStart]

/-- The parts after the year are read by their places. -/
theorem readParts_tail {p : Parts} (fits : p.Fits) {cs : List Char} {rest : Nat}
    (h : cs.drop rest = tail p)
    (long : rest = if cs.head? = some '-' ∨ cs.head? = some '+' then 7 else 4) :
    readParts cs = { p with year := (readParts cs).year } := by
  have ten : 1 < 10 := by decide
  have at1 := drop_marked (a := []) h rfl (rest + 1) rfl
  have month := length_fixed ten (by decide) fits.month
  have at4 := drop_marked at1 month (rest + 4) rfl
  have day := length_fixed ten (by decide) fits.day
  have at7 := drop_marked at4 day (rest + 7) rfl
  have hour := length_fixed ten (by decide) fits.hour
  have at10 := drop_marked at7 hour (rest + 10) rfl
  have minute := length_fixed ten (by decide) fits.minute
  have at13 := drop_marked at10 minute (rest + 13) rfl
  have second := length_fixed ten (by decide) fits.second
  have at16 := drop_marked at13 second (rest + 16) rfl
  have milli := length_fixed ten (by decide) fits.milli
  unfold readParts
  dsimp only
  rw [← long, take_part at1 month, take_part at4 day, take_part at7 hour, take_part at10 minute,
    take_part at13 second, take_part at16 milli]
  simp only [ofDigitChars_fixed]

theorem readParts_text {p : Parts} (fits : p.Fits) (low : -271821 ≤ p.year)
    (high : p.year ≤ 275760) : readParts p.text.toList = p := by
  have six (n : Nat) (lt : n < 10 ^ 6) : (fixed 10 6 n).length = 6 :=
    length_fixed (by decide) (by decide) lt
  have read {rest : Nat} (h : p.text.toList.drop rest = tail p)
      (long : rest = if p.text.toList.head? = some '-' ∨ p.text.toList.head? = some '+' then 7
        else 4) (year : (readParts p.text.toList).year = p.year) : readParts p.text.toList = p := by
    rw [readParts_tail fits h long, year]
  have text := toList_text p
  unfold yearText at text
  split at text
  next short =>
    have four : (fixed 10 4 p.year.toNat).length = 4 :=
      length_fixed (by decide) (by decide) (by omega)
    rw [toList_padStart] at text
    obtain ⟨c, cs, eq⟩ : ∃ c cs, fixed 10 4 p.year.toNat = c :: cs := by
      cases eq : fixed 10 4 p.year.toNat with
      | nil => rw [eq] at four; cases four
      | cons c cs => exact ⟨c, cs, rfl⟩
    have digit : c.isDigit := isDigit_fixed (eq ▸ List.mem_cons_self)
    have head : p.text.toList.head? = some c := by rw [text, eq]; rfl
    have minus : c ≠ '-' := by rintro rfl; cases digit
    have plus : c ≠ '+' := by rintro rfl; cases digit
    have year : (readParts p.text.toList).year =
        (Nat.ofDigitChars 10 ((p.text.toList.drop 0).take 4) 0 : Nat) := by
      unfold readParts
      dsimp only
      rw [head]
      split
      next is => exact absurd (Option.some.inj is) minus
      next is => exact absurd (Option.some.inj is) plus
      next => rfl
    refine @read 4 ?_ ?_ ?_
    · rw [text, List.drop_left' four]
    · rw [head, if_neg]
      rintro (is | is)
      · exact minus (Option.some.inj is)
      · exact plus (Option.some.inj is)
    · rw [year, text, List.drop_zero, List.take_left' four, ofDigitChars_fixed]
      omega
  next long =>
    rw [String.toList_append, toList_padStart] at text
    have digits := six p.year.natAbs (by omega)
    have drop1 (sign : Char) (is : p.text.toList = sign :: (fixed 10 6 p.year.natAbs ++ tail p)) :
        p.text.toList.drop 7 = tail p ∧
          Nat.ofDigitChars 10 ((p.text.toList.drop 1).take 6) 0 = p.year.natAbs := by
      rw [is, List.drop_succ_cons, List.drop_left' digits, List.drop_succ_cons, List.drop_zero,
        List.take_left' digits, ofDigitChars_fixed]
      exact ⟨rfl, rfl⟩
    split at text
    next negative =>
      obtain ⟨drop, number⟩ := drop1 '-' text
      have head : p.text.toList.head? = some '-' := by rw [text]; rfl
      refine read drop (by rw [head, if_pos (.inl rfl)]) ?_
      unfold readParts
      dsimp only
      rw [head, number]
      show -(p.year.natAbs : Int) = p.year
      omega
    next positive =>
      obtain ⟨drop, number⟩ := drop1 '+' text
      have head : p.text.toList.head? = some '+' := by rw [text]; rfl
      refine read drop (by rw [head, if_pos (.inr rfl)]) ?_
      unfold readParts
      dsimp only
      rw [head, number]
      show (p.year.natAbs : Int) = p.year
      omega

/-- A text is read as the instant it is written for, and no other text is read. -/
theorem ofISOString_iff {s : String} {t : Int} :
    ofISOString s = some t ↔ -last ≤ t ∧ t ≤ last ∧ s = toISOString t := by
  unfold ofISOString
  dsimp only
  constructor
  · intro is
    split at is
    next ok =>
      cases is
      exact ⟨ok.1, ok.2.1, ok.2.2.symm⟩
    next => cases is
  · rintro ⟨low, high, rfl⟩
    obtain ⟨first, final⟩ := year_bounds low high
    rw [toISOString, readParts_text (partsOf_fits t) first final, time_partsOf, toISOString,
      if_pos ⟨low, high, rfl⟩]

end NxgtData.IsoDate
