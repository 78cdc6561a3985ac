import Mathlib.Data.Finset.Insert
import Mathlib.Tactic.IntervalCases
import NxgtData.Schedule.Denote

/-!
`parseCron` denotes its grammar, but for an item `7/n` of the day of week. Its loop starts past
the maximum, which is Saturday, and adds nothing: the Sunday that the item names is lost when no
other item has it. A reversed range is refused, and this one is not.
-/
namespace NxgtData.Schedule
open Calendar Utf16

variable {f : Field} {s text : Utf16} {items : List Item}

/-! What the loops add is what the items denote. -/

theorem mem_added (pos : ∀ i ∈ items, 1 ≤ i.stride) {v : Nat} :
    v ∈ added f items ↔ ∃ i ∈ items, v ∈ i.added f := by
  have each : ∀ vs, v ∈ items.foldl (fun vs i => i.add f vs) vs ↔
      v ∈ vs ∨ ∃ i ∈ items, v ∈ i.added f := by
    induction items with
    | nil => simp
    | cons i items ih =>
        intro vs
        rw [List.foldl_cons, ih (fun j mem => pos j (List.mem_cons_of_mem _ mem)),
          Item.mem_add (pos i List.mem_cons_self), or_assoc, List.exists_mem_cons_iff]
  exact (each ∅).trans (or_iff_right (Finset.notMem_empty v))

theorem FieldText.item (field : FieldText f s items) {i : Item} (mem : i ∈ items) :
    ∃ t, ItemText f t i := by
  obtain ⟨texts, -, -, each⟩ := field
  induction each with
  | nil => exact absurd mem List.not_mem_nil
  | cons first rest ih =>
      cases mem with
      | head => exact ⟨_, first⟩
      | tail _ mem => exact ih mem

theorem FieldText.stride_pos (field : FieldText f s items) {i : Item} (mem : i ∈ items) :
    1 ≤ i.stride := by
  obtain ⟨t, text⟩ := field.item mem
  exact text.stride_pos

theorem FieldText.ne_nil (field : FieldText f s items) : items ≠ [] := by
  obtain ⟨texts, some, -, each⟩ := field
  rintro rfl
  exact some (List.forall₂_nil_right_iff.mp each)

theorem Spells.within {v : Nat} (spelled : Spells f s v) : f.min ≤ v ∧ v ≤ f.max := by
  cases spelled with
  | number _ low high => exact ⟨low, high⟩
  | name _ _ _ low high => exact ⟨low, high⟩

/-- A value past the last one a star reaches is 7, in the day of week. -/
theorem Spells.le_top {v : Nat} (spelled : Spells f s v) : v ≤ f.top ∨ v = 7 ∧ f.max = 7 := by
  have := spelled.within
  unfold Field.top
  split <;> omega

/-- An item ends no earlier than it begins, but for `7/n`. -/
theorem ItemText.first_le {i : Item} (text : ItemText f s i) (some : f.min ≤ f.top)
    (other : f.max = 7 → ¬ i.SteppedSeven) : i.first f ≤ i.last f := by
  cases text with
  | plain range =>
      cases range with
      | star => exact some
      | one => exact le_rfl
      | span _ _ le => exact le
  | stepped range =>
      cases range with
      | star => exact some
      | span _ _ le => exact le
      | one first =>
          rcases first.le_top with le | ⟨rfl, seven⟩
          · exact le
          · exact absurd ⟨rfl, rfl⟩ (other seven)

theorem Item.added_eq_values {i : Item} (le : i.first f ≤ i.last f) :
    i.added f = i.values f := by
  ext v
  constructor
  · exact .inr
  · rintro (rfl | own)
    · exact ⟨le, 0, by rw [Nat.zero_mul, Nat.add_zero]⟩
    · exact own

/-- A field with one maximum. -/
theorem mem_added_iff_union (field : FieldText f s items) (some : f.min ≤ f.top)
    (other : f.max ≠ 7) {v : Nat} : v ∈ added f items ↔ v ∈ union f items := by
  rw [mem_added fun i mem => field.stride_pos mem]
  refine exists_congr fun i => and_congr_right fun mem => ?_
  obtain ⟨t, text⟩ := field.item mem
  rw [Item.added_eq_values (text.first_le some fun seven => absurd seven other)]

/-! The day of the week. -/

theorem mem_foldSunday {vs : Finset Nat} (high : ∀ v ∈ vs, v ≤ 7) {d : Nat} :
    d ∈ foldSunday vs ↔ ∃ v ∈ vs, v % 7 = d := by
  unfold foldSunday
  split
  next seven =>
    rw [Finset.mem_insert, Finset.mem_erase]
    constructor
    · rintro (rfl | ⟨other, mem⟩)
      · exact ⟨7, seven, rfl⟩
      · have := high d mem
        exact ⟨d, mem, Nat.mod_eq_of_lt (by omega)⟩
    · rintro ⟨v, mem, rfl⟩
      have le := high v mem
      by_cases is : v = 7
      · exact .inl (by rw [is])
      · rw [Nat.mod_eq_of_lt (by omega)]
        exact .inr ⟨is, mem⟩
  next none =>
    constructor
    · intro mem
      have le := high d mem
      have : d ≠ 7 := fun is => none (is ▸ mem)
      exact ⟨d, mem, Nat.mod_eq_of_lt (by omega)⟩
    · rintro ⟨v, mem, rfl⟩
      have le := high v mem
      have : v ≠ 7 := fun is => none (is ▸ mem)
      rw [Nat.mod_eq_of_lt (by omega)]
      exact mem

theorem ItemText.values_le {i : Item} (text : ItemText .dayOfWeek s i) {v : Nat}
    (mem : v ∈ i.values .dayOfWeek) : v ≤ 7 := by
  have bounds : i.first .dayOfWeek ≤ 7 ∧ i.last .dayOfWeek ≤ 7 := by
    cases text with
    | plain range =>
        cases range with
        | star => decide
        | one first => exact ⟨first.within.2, first.within.2⟩
        | span first last => exact ⟨first.within.2, last.within.2⟩
    | stepped range =>
        cases range with
        | star => exact ⟨Nat.zero_le 7, Nat.le_succ 6⟩
        | one first => exact ⟨first.within.2, Nat.le_succ 6⟩
        | span first last => exact ⟨first.within.2, last.within.2⟩
  rcases mem with rfl | ⟨le, -⟩
  · exact bounds.1
  · exact le.trans bounds.2

/-- The item `7/n` names Sunday and no other day. -/
theorem Item.SteppedSeven.mem_values {i : Item} (seven : i.SteppedSeven) {v : Nat} :
    v ∈ i.values .dayOfWeek ↔ v = 7 := by
  have first : i.first .dayOfWeek = 7 := by rw [Item.first, seven.1]; rfl
  have last : i.last .dayOfWeek = 6 := by rw [Item.last, seven.1, seven.2]; rfl
  constructor
  · rintro (is | ⟨le, k, is⟩)
    · exact is.trans first
    · omega
  · rintro rfl
    exact .inl first.symm

/-- Its loop adds none. -/
theorem Item.SteppedSeven.notMem_added {i : Item} (seven : i.SteppedSeven) (v : Nat) :
    v ∉ i.added .dayOfWeek := by
  have first : i.first .dayOfWeek = 7 := by rw [Item.first, seven.1]; rfl
  have last : i.last .dayOfWeek = 6 := by rw [Item.last, seven.1, seven.2]; rfl
  rintro ⟨le, k, is⟩
  omega

/-- The days of the week that the loops come to: those of the items other than `7/n`. -/
theorem mem_weekdays (field : FieldText .dayOfWeek s items) {d : Nat} :
    d ∈ foldSunday (added .dayOfWeek items) ↔
      ∃ i ∈ items, ¬ i.SteppedSeven ∧ ∃ v ∈ i.values .dayOfWeek, v % 7 = d := by
  have member : ∀ v, v ∈ added .dayOfWeek items ↔
      ∃ i ∈ items, ¬ i.SteppedSeven ∧ v ∈ i.values .dayOfWeek := by
    intro v
    rw [mem_added fun i mem => field.stride_pos mem]
    refine exists_congr fun i => and_congr_right fun mem => ?_
    obtain ⟨t, text⟩ := field.item mem
    by_cases seven : i.SteppedSeven
    · exact iff_of_false (seven.notMem_added v) fun h => h.1 seven
    · rw [Item.added_eq_values (text.first_le (by decide) fun _ => seven)]
      exact (and_iff_right seven).symm
  rw [mem_foldSunday]
  · constructor
    · rintro ⟨v, mem, is⟩
      obtain ⟨i, own, other, mem⟩ := (member v).mp mem
      exact ⟨i, own, other, v, mem, is⟩
    · rintro ⟨i, own, other, v, mem, is⟩
      exact ⟨v, (member v).mpr ⟨i, own, other, mem⟩, is⟩
  · intro v mem
    obtain ⟨i, own, -, mem⟩ := (member v).mp mem
    obtain ⟨t, text⟩ := field.item own
    exact text.values_le mem

/-- They are all the days the items denote, unless a Sunday is lost. -/
theorem weekdays_iff (field : FieldText .dayOfWeek s items) (kept : ¬ SundayLost items) {d : Nat} :
    d ∈ foldSunday (added .dayOfWeek items) ↔ ∃ v ∈ union .dayOfWeek items, v % 7 = d := by
  rw [mem_weekdays field]
  constructor
  · rintro ⟨i, own, -, v, mem, is⟩
    exact ⟨v, ⟨i, own, mem⟩, is⟩
  · rintro ⟨v, ⟨i, own, mem⟩, is⟩
    by_cases seven : i.SteppedSeven
    · -- the item adds nothing, so its Sunday has to come from another
      obtain rfl := seven.mem_values.mp mem
      by_contra none
      refine kept ⟨⟨i, own, seven⟩, fun j own other w mem sunday => none ?_⟩
      exact ⟨j, own, other, w, mem, sunday.trans is⟩
    · exact ⟨i, own, seven, v, mem, is⟩

theorem parsed_denotes {items : Items} (spelled : Spelled text items)
    (kept : ¬ SundayLost items.weekdays) : Denotes items (parsed items) := by
  obtain ⟨p0, p1, p2, p3, p4, -, minutes, hours, days, months, weekdays⟩ := spelled
  exact {
    minutes := fun v => mem_added_iff_union minutes (by decide) (by decide)
    hours := fun v => mem_added_iff_union hours (by decide) (by decide)
    days := fun v => mem_added_iff_union days (by decide) (by decide)
    months := fun v => mem_added_iff_union months (by decide) (by decide)
    weekdays := fun d => weekdays_iff weekdays kept
    daysStar := decide_eq_true_iff
    weekdaysStar := decide_eq_true_iff }

/-- The items of a text denote one cron. -/
theorem Denotes.unique {items : Items} {cron cron' : Cron} (denotes : Denotes items cron)
    (denotes' : Denotes items cron') : cron = cron' := by
  obtain ⟨minutes, hours, days, months, weekdays, star, weekStar⟩ := cron
  obtain ⟨minutes', hours', days', months', weekdays', star', weekStar'⟩ := cron'
  obtain rfl : minutes = minutes' :=
    Finset.ext fun v => (denotes.minutes v).trans (denotes'.minutes v).symm
  obtain rfl : hours = hours' :=
    Finset.ext fun v => (denotes.hours v).trans (denotes'.hours v).symm
  obtain rfl : days = days' := Finset.ext fun v => (denotes.days v).trans (denotes'.days v).symm
  obtain rfl : months = months' :=
    Finset.ext fun v => (denotes.months v).trans (denotes'.months v).symm
  obtain rfl : weekdays = weekdays' :=
    Finset.ext fun v => (denotes.weekdays v).trans (denotes'.weekdays v).symm
  obtain rfl : star = star' :=
    Bool.eq_iff_iff.mpr (denotes.daysStar.trans denotes'.daysStar.symm)
  obtain rfl : weekStar = weekStar' :=
    Bool.eq_iff_iff.mpr (denotes.weekdaysStar.trans denotes'.weekdaysStar.symm)
  rfl

/-! A text that loses its Sunday. -/

/-- Every month begins on a Sunday in some year of the cycle. -/
theorem exists_sunday {m : Nat} (low : 1 ≤ m) (high : m ≤ 12) : ∃ n : Int, cycleStart ≤ n ∧
    n < cycleStart + cycleDays ∧ (date n).month = m ∧ (date n).day = 1 ∧ weekday n = 0 := by
  interval_cases m
  · exact ⟨13149, by decide⟩
  · exact ⟨12449, by decide⟩
  · exact ⟨14304, by decide⟩
  · exact ⟨11413, by decide⟩
  · exact ⟨12904, by decide⟩
  · exact ⟨12204, by decide⟩
  · exact ⟨11504, by decide⟩
  · exact ⟨12631, by decide⟩
  · exact ⟨11931, by decide⟩
  · exact ⟨11231, by decide⟩
  · exact ⟨14549, by decide⟩
  · exact ⟨12022, by decide⟩

/-- The cron that a text with a lost Sunday denotes. -/
def withSunday (cron : Cron) : Cron := { cron with weekdays := insert 0 cron.weekdays }

theorem withSunday_denotes {items : Items} (spelled : Spelled text items)
    (lost : SundayLost items.weekdays) : Denotes items (withSunday (parsed items)) := by
  obtain ⟨p0, p1, p2, p3, p4, -, minutes, hours, days, months, weekdays⟩ := spelled
  obtain ⟨⟨j, own, seven⟩, others⟩ := lost
  refine {
    minutes := fun v => mem_added_iff_union minutes (by decide) (by decide)
    hours := fun v => mem_added_iff_union hours (by decide) (by decide)
    days := fun v => mem_added_iff_union days (by decide) (by decide)
    months := fun v => mem_added_iff_union months (by decide) (by decide)
    weekdays := fun d => ?_
    daysStar := decide_eq_true_iff
    weekdaysStar := decide_eq_true_iff }
  refine Finset.mem_insert.trans ((or_congr_right (mem_weekdays weekdays)).trans ?_)
  constructor
  · rintro (rfl | ⟨i, own, -, v, mem, is⟩)
    · exact ⟨7, ⟨j, own, seven.mem_values.mpr rfl⟩, rfl⟩
    · exact ⟨v, ⟨i, own, mem⟩, is⟩
  · rintro ⟨v, ⟨i, own, mem⟩, is⟩
    by_cases stepped : i.SteppedSeven
    · obtain rfl := stepped.mem_values.mp mem
      exact .inl is.symm
    · exact .inr ⟨i, own, stepped, v, mem, is⟩

theorem ItemText.first_within {i : Item} (text : ItemText f s i) (some : f.min ≤ f.max) :
    f.min ≤ i.first f ∧ i.first f ≤ f.max := by
  have within : ∀ {t r}, RangeText f t r → f.min ≤ r.first f ∧ r.first f ≤ f.max := by
    intro t r range
    cases range with
    | star => exact ⟨le_rfl, some⟩
    | one first => exact first.within
    | span first => exact first.within
  cases text with
  | plain range => exact within range
  | stepped range => exact within range

/-- Some month of the text begins on a Sunday, and its first day matches. -/
theorem withSunday_reachable {items : Items} (spelled : Spelled text items)
    (lost : SundayLost items.weekdays) : Reachable (withSunday (parsed items)) := by
  obtain ⟨p0, p1, p2, p3, p4, -, -, -, days, months, weekdays⟩ := spelled
  obtain ⟨i, rest, is⟩ := List.exists_cons_of_ne_nil months.ne_nil
  have own : i ∈ items.months := is ▸ List.mem_cons_self
  obtain ⟨t, item⟩ := months.item own
  obtain ⟨low, high⟩ := item.first_within (by decide)
  obtain ⟨n, begun, before, month, day, sunday⟩ := exists_sunday low high
  refine ⟨n, begun, before, ?_⟩
  have listed : i.first .month ∈ (withSunday (parsed items)).months :=
    (mem_added_iff_union months (by decide) (by decide)).mpr ⟨i, own, .inl rfl⟩
  have unstarred : ¬ items.weekdays.head?.map Item.range = some .star := by
    intro starred
    obtain ⟨j, first, range⟩ := Option.map_eq_some_iff.mp starred
    have other : ¬ j.SteppedSeven := fun seven => absurd (range.symm.trans seven.1) nofun
    refine lost.2 j (List.mem_of_head? first) other 0 (.inl ?_) rfl
    rw [Item.first, range]
    rfl
  have first : items.days.head?.map Item.range = some .star →
      1 ∈ added .dayOfMonth items.days := by
    intro starred
    obtain ⟨j, first, range⟩ := Option.map_eq_some_iff.mp starred
    refine (mem_added_iff_union days (by decide) (by decide)).mpr
      ⟨j, List.mem_of_head? first, .inl ?_⟩
    rw [Item.first, range]
    rfl
  unfold matchesDate matchesDay
  rw [month, day, sunday, if_neg (not_not.mpr listed)]
  simp only [withSunday, parsed, Finset.mem_insert_self, decide_true, Bool.and_true, Bool.or_true,
    decide_eq_false unstarred, Bool.or_false]
  split
  next starred => exact decide_eq_true (first (of_decide_eq_true starred))
  · rfl

/-- `parseCron` accepts the texts of the grammar that some day matches, and answers what their
items denote, exactly when no Sunday is lost. -/
theorem parseCron_reads (text : Utf16) :
    (∀ cron, parseCron text = .ok cron ↔ Reads text cron) ↔ ¬ LosesSunday text := by
  constructor
  · rintro reads ⟨items, spelled, lost⟩
    have denotes := withSunday_denotes spelled lost
    have read := (reads _).mpr ⟨items, spelled, denotes, withSunday_reachable spelled lost⟩
    obtain ⟨items', spelled', is, -⟩ := parseCron_eq_ok.mp read
    -- the two lists of items are of one word, and the parser reads a word in one way
    obtain ⟨p0, p1, p2, p3, p4, parts, -, -, -, -, field⟩ := spelled
    obtain ⟨q0, q1, q2, q3, q4, parts', -, -, -, -, field'⟩ := spelled'
    rw [parts] at parts'
    cases parts'
    have same : added .dayOfWeek items.weekdays = added .dayOfWeek items'.weekdays :=
      Except.ok.inj (((parseField_eq_ok Field.dayOfWeek_plain).mpr ⟨_, field, rfl⟩).symm.trans
        ((parseField_eq_ok Field.dayOfWeek_plain).mpr ⟨_, field', rfl⟩))
    have sunday : 0 ∈ foldSunday (added .dayOfWeek items.weekdays) := by
      have weekdays := congrArg Cron.weekdays is
      have mem : 0 ∈ (withSunday (parsed items)).weekdays := Finset.mem_insert_self 0 _
      rw [weekdays] at mem
      rw [same]
      exact mem
    obtain ⟨i, own, other, v, mem, zero⟩ := (mem_weekdays field).mp sunday
    exact lost.2 i own other v mem zero
  · intro kept cron
    rw [parseCron_eq_ok]
    constructor
    · rintro ⟨items, spelled, rfl, reached⟩
      exact ⟨items, spelled, parsed_denotes spelled fun lost => kept ⟨items, spelled, lost⟩, reached⟩
    · rintro ⟨items, spelled, denotes, reached⟩
      have same := denotes.unique (parsed_denotes spelled fun lost => kept ⟨items, spelled, lost⟩)
      exact ⟨items, spelled, same, same ▸ reached⟩

/-- What the grammar reads has a day of the week, since an item denotes its first value. -/
theorem Reads.weekdays_ne_empty {cron : Cron} (reads : Reads text cron) : cron.weekdays ≠ ∅ := by
  obtain ⟨items, ⟨p0, p1, p2, p3, p4, -, -, -, -, -, field⟩, denotes, -⟩ := reads
  obtain ⟨i, rest, is⟩ := List.exists_cons_of_ne_nil field.ne_nil
  have first : i.first .dayOfWeek ∈ union .dayOfWeek items.weekdays :=
    ⟨i, is ▸ List.mem_cons_self, .inl rfl⟩
  exact Finset.ne_empty_of_mem ((denotes.weekdays _).mpr ⟨_, first, rfl⟩)

/-- The first of the month and every Sunday: the Sundays never fire. -/
theorem steppedSeven_lost :
    ¬ ∀ cron, parseCron (Utf16.ofText "0 0 1 * 7/2") = .ok cron ↔
      Reads (Utf16.ofText "0 0 1 * 7/2") cron := by
  intro reads
  have run : (parseCron (Utf16.ofText "0 0 1 * 7/2")).toOption.map Cron.weekdays = some ∅ := by
    decide +kernel
  obtain ⟨cron, is, none⟩ := Option.map_eq_some_iff.mp run
  cases parse : parseCron (Utf16.ofText "0 0 1 * 7/2") with
  | error e =>
      rw [parse] at is
      exact absurd is nofun
  | ok c =>
      rw [parse] at is
      cases is
      exact ((reads _).mp parse).weekdays_ne_empty none

end NxgtData.Schedule
