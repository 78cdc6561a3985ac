import Mathlib.Data.List.DropRight
import NxgtData.Schedule.Parses

/-!
`parseCron` denotes its grammar, but for an item `7/n` of the day of week: the loop starts
past the maximum, which is Saturday, and adds nothing, so the Sunday that the item names is lost
when no other item has it.
-/
namespace NxgtData.Schedule
open Calendar Utf16

variable {f : Field} {s text : Utf16}

/-! The fields of a text are its words. -/

section Words
variable {u : UInt16}

theorem words_space (space : isSpace u = true) : words (u :: s) = words s := by
  unfold words
  rw [List.splitOnP_cons_eq_if_modifyHead, if_pos space]
  rfl

theorem words_concat_space (space : isSpace u = true) : words (s ++ [u]) = words s := by
  unfold words
  rw [List.splitOnP_append_cons s [] space, List.splitOnP_nil, List.filter_append]
  exact List.append_nil _

/-- A unit of a word goes to the front of the first part. -/
theorem words_unit (unit : isSpace u = false) : ∃ part rest,
    words s = (if part = [] then [] else [part]) ++ rest ∧ words (u :: s) = (u :: part) :: rest ∧
      (part = [] ↔ s.head?.all isSpace = true) := by
  obtain ⟨part, rest, parts⟩ := List.exists_cons_of_ne_nil (List.splitOnP_ne_nil isSpace s)
  refine ⟨part, rest.filter fun w => !w.isEmpty, ?_, ?_, ?_⟩
  · unfold words
    rw [parts, List.filter_cons]
    cases part <;> rfl
  · unfold words
    rw [List.splitOnP_cons_eq_if_modifyHead, unit, if_neg Bool.false_ne_true, parts]
    rfl
  · cases s with
    | nil =>
        rw [List.splitOnP_nil] at parts
        cases parts
        exact iff_of_true rfl rfl
    | cons v s =>
        rw [List.splitOnP_cons_eq_if_modifyHead] at parts
        rw [List.head?_cons, Option.all_some]
        split at parts
        next space =>
          cases parts
          exact iff_of_true rfl space
        next other =>
          refine iff_of_false (fun none => ?_) other
          obtain ⟨p, r, more⟩ := List.exists_cons_of_ne_nil (List.splitOnP_ne_nil isSpace s)
          rw [more] at parts
          cases parts
          exact absurd none nofun

/-- A text that does not end in a space splits into its words, after an empty part when it
begins with one. -/
theorem splitSpaces_eq (ends : ∃ w, s.getLast? = some w ∧ isSpace w = false) :
    splitSpaces s = (if s.head?.all isSpace = true then [[]] else []) ++ words s := by
  induction s with
  | nil =>
      obtain ⟨w, none, -⟩ := ends
      exact absurd none nofun
  | cons u s ih =>
      cases s with
      | nil =>
          obtain ⟨w, last, unit⟩ := ends
          obtain rfl : u = w := Option.some.inj last
          simp [splitSpaces, words, List.splitOnP_cons_eq_if_modifyHead, unit]
      | cons v s =>
          have rest := ih (by rwa [List.getLast?_cons_cons] at ends)
          rw [List.head?_cons, Option.all_some] at rest ⊢
          unfold splitSpaces
          cases space : isSpace u with
          | true =>
              rw [if_pos rfl, if_pos rfl, words_space space]
              dsimp only
              rw [rest]
              cases isSpace v <;> rfl
          | false =>
              obtain ⟨part, more, own, grown, none⟩ := words_unit (s := v :: s) space
              rw [List.head?_cons, Option.all_some] at none
              rw [if_neg Bool.false_ne_true, if_neg Bool.false_ne_true, rest, own, grown]
              by_cases starts : isSpace v = true
              · rw [if_pos starts, none.mpr starts, if_pos rfl]
                rfl
              · rw [if_neg starts, if_neg fun empty => starts (none.mp empty)]
                rfl

theorem words_dropWhile (s : Utf16) : words (s.dropWhile isSpace) = words s := by
  induction s with
  | nil => rfl
  | cons u s ih =>
      rw [List.dropWhile_cons]
      split
      next space => rw [ih, words_space space]
      · rfl

theorem words_rdropWhile (s : Utf16) : words (s.rdropWhile isSpace) = words s := by
  induction s using List.reverseRecOn with
  | nil => rfl
  | append_singleton s u ih =>
      rw [List.rdropWhile_concat]
      split
      next space => rw [ih, words_concat_space space]
      · rfl

/-- The parts of a trimmed text are its words; of a text of spaces there is one, empty. -/
theorem splitSpaces_trim (text : Utf16) :
    splitSpaces (trim text) = if words text = [] then [[]] else words text := by
  have same : words (trim text) = words text :=
    (words_rdropWhile _).trans (words_dropWhile text)
  have trimmed : trim text = (text.dropWhile isSpace).rdropWhile isSpace := rfl
  cases whole : trim text with
  | nil =>
      rw [whole] at same
      have none : words text = [] := same.symm
      rw [if_pos none]
      rfl
  | cons u rest =>
      have some : trim text ≠ [] := whole ▸ List.cons_ne_nil u rest
      have ends : isSpace ((trim text).getLast some) = false := by
        have := List.rdropWhile_last_not isSpace (text.dropWhile isSpace) some
        exact Bool.not_eq_true _ ▸ this
      have begins : isSpace u = false := by
        have front : trim text <+: text.dropWhile isSpace := List.rdropWhile_prefix isSpace _
        rw [whole] at front
        obtain ⟨back, is⟩ := front
        have := List.head?_dropWhile_not isSpace text
        rw [← is] at this
        simpa using this
      have parts := splitSpaces_eq (s := trim text)
        ⟨_, List.getLast?_eq_some_getLast some, ends⟩
      rw [whole, List.head?_cons, Option.all_some, begins, if_neg Bool.false_ne_true,
        List.nil_append, ← whole, same] at parts
      rw [← whole, parts, if_neg]
      obtain ⟨part, more, -, grown, -⟩ := words_unit (s := rest) begins
      rw [← same, whole, grown]
      exact List.cons_ne_nil _ _

end Words

/-! The walk over the days of a cycle. -/

theorem reaches_iff {cron : Cron} {fuel : Nat} {n : Int} :
    reaches cron fuel n = true ↔ ∃ m, n ≤ m ∧ m < n + fuel ∧ matchesDate cron m = true := by
  induction fuel generalizing n with
  | zero =>
      refine iff_of_false nofun ?_
      rintro ⟨m, low, high, -⟩
      omega
  | succ fuel ih =>
      unfold reaches
      split
      next here => exact iff_of_true rfl ⟨n, le_rfl, by omega, here⟩
      next notHere =>
        rw [ih]
        constructor
        · rintro ⟨m, low, high, there⟩
          exact ⟨m, by omega, by omega, there⟩
        · rintro ⟨m, low, high, there⟩
          have : m ≠ n := fun same => notHere (same ▸ there)
          exact ⟨m, by omega, by omega, there⟩

theorem checkReachable_eq_ok {c cron : Cron} :
    checkReachable c = .ok cron ↔ cron = c ∧ Reachable c := by
  unfold checkReachable
  split
  next reached =>
    rw [reaches_iff] at reached
    constructor
    · intro is
      cases is
      exact ⟨rfl, reached⟩
    · rintro ⟨rfl, -⟩
      rfl
  next never =>
    rw [reaches_iff] at never
    refine iff_of_false nofun ?_
    rintro ⟨-, reached⟩
    exact never reached

/-! The star that a day field begins with. -/

theorem Spells.head (plain : f.Plain) {v : Nat} (spelled : Spells f s v) (back : Utf16) :
    (s ++ back).head? ≠ some star := by
  obtain ⟨u, rest, rfl⟩ := List.exists_cons_of_ne_nil (spelled.plain plain).1
  have low := (spelled.plain plain).2 u List.mem_cons_self
  intro is
  obtain rfl : u = star := Option.some.inj is
  exact absurd low (by decide)

theorem RangeText.head (plain : f.Plain) {r : Range} (range : RangeText f s r) (back : Utf16) :
    (s ++ back).head? = some Schedule.star ↔ r = .star := by
  cases range with
  | star => exact iff_of_true rfl rfl
  | one first => exact iff_of_false (first.head plain back) nofun
  | span first last =>
      rw [List.append_assoc]
      exact iff_of_false (first.head plain _) nofun

theorem ItemText.head (plain : f.Plain) {i : Item} (text : ItemText f s i) (back : Utf16) :
    (s ++ back).head? = some star ↔ i.range = .star := by
  cases text with
  | plain range => exact range.head plain back
  | stepped range =>
      rw [List.append_assoc]
      exact range.head plain _

theorem FieldText.head (plain : f.Plain) {items : List Item} (field : FieldText f s items) :
    s.head? = some star ↔ items.head?.map Item.range = some .star := by
  obtain ⟨texts, some, rfl, each⟩ := field
  cases each with
  | nil => exact absurd rfl some
  | @cons text i texts items first rest =>
      rw [List.head?_cons, Option.map_some, Option.some_inj]
      cases rest with
      | nil =>
          rw [List.intercalate_singleton, ← List.append_nil text]
          exact first.head plain []
      | cons =>
          rw [List.intercalate_cons_cons, List.append_assoc]
          exact first.head plain _

/-! What `parseCron` makes of the items. -/

/-- The cron of a list of items per field. -/
def parsed (items : Items) : Cron where
  minutes := added .minute items.minutes
  hours := added .hour items.hours
  days := added .dayOfMonth items.days
  months := added .month items.months
  weekdays := foldSunday (added .dayOfWeek items.weekdays)
  daysStar := items.days.head?.map Item.range = some .star
  weekdaysStar := items.weekdays.head?.map Item.range = some .star

theorem parseCron_eq_ok {cron : Cron} :
    parseCron text = .ok cron ↔
      ∃ items, Spelled text items ∧ cron = parsed items ∧ Reachable (parsed items) := by
  unfold parseCron
  rw [splitSpaces_trim]
  split
  next p0 p1 p2 p3 p4 parts =>
    have parts : words text = [p0, p1, p2, p3, p4] := by
      split at parts
      · exact absurd (congrArg List.length parts) nofun
      · exact parts
    simp only [bind_eq_ok_iff, parseField_eq_ok (.of_none (f := .minute) rfl),
      parseField_eq_ok (.of_none (f := .hour) rfl),
      parseField_eq_ok (.of_none (f := .dayOfMonth) rfl), parseField_eq_ok Field.month_plain,
      parseField_eq_ok Field.dayOfWeek_plain, checkReachable_eq_ok]
    have made : ∀ items : Items, FieldText .dayOfMonth p2 items.days →
        FieldText .dayOfWeek p4 items.weekdays → parsed items = {
          minutes := added .minute items.minutes
          hours := added .hour items.hours
          days := added .dayOfMonth items.days
          months := added .month items.months
          weekdays := foldSunday (added .dayOfWeek items.weekdays)
          daysStar := p2.head? = some star
          weekdaysStar := p4.head? = some star } := by
      intro items at2 at4
      simp only [parsed, at2.head (.of_none rfl), at4.head Field.dayOfWeek_plain]
    constructor
    · rintro ⟨_, ⟨minutes, at0, rfl⟩, _, ⟨hours, at1, rfl⟩, _, ⟨days, at2, rfl⟩, _,
        ⟨months, at3, rfl⟩, _, ⟨weekdays, at4, rfl⟩, is, reached⟩
      have same := made ⟨minutes, hours, days, months, weekdays⟩ at2 at4
      exact ⟨_, ⟨p0, p1, p2, p3, p4, parts, at0, at1, at2, at3, at4⟩, is.trans same.symm,
        same ▸ reached⟩
    · rintro ⟨items, ⟨q0, q1, q2, q3, q4, parts', at0, at1, at2, at3, at4⟩, is, reached⟩
      rw [parts] at parts'
      cases parts'
      have same := made items at2 at4
      exact ⟨_, ⟨_, at0, rfl⟩, _, ⟨_, at1, rfl⟩, _, ⟨_, at2, rfl⟩, _, ⟨_, at3, rfl⟩, _,
        ⟨_, at4, rfl⟩, is.trans same, same ▸ reached⟩
  next few =>
    refine iff_of_false nofun ?_
    rintro ⟨items, ⟨p0, p1, p2, p3, p4, parts, -⟩, -⟩
    refine few p0 p1 p2 p3 p4 ?_
    rw [parts]
    rfl

end NxgtData.Schedule
