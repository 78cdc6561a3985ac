import Mathlib.Data.Set.Basic
import NxgtData.Schedule.Cron

/-!
The grammar of a cron, apart from how it is read: five fields between spaces, each a comma
list of items, each item a range and a step. An item denotes its first value and those that
its step comes to up to its last; a text denotes the union of its items' values.
-/
namespace NxgtData.Schedule
open Calendar Utf16

inductive Range where
  | star
  | one (a : Nat)
  | span (a b : Nat)
  deriving DecidableEq

structure Item where
  range : Range
  step : Option Nat
  deriving DecidableEq

/-- A number, in digits. -/
structure Digits (s : Utf16) (n : Nat) : Prop where
  nonempty : s ≠ []
  all : ∀ u ∈ s, isDigit u = true
  value : digits s = n

/-- A value of a field: a number, or a name by its place in the list; within the field. -/
inductive Spells (f : Field) (s : Utf16) (v : Nat) : Prop where
  | number (written : Digits s v) (low : f.min ≤ v) (high : v ≤ f.max)
  | name {names : List Utf16} {i : Nat} (listed : f.names = some names)
      (at_ : names[i]? = some (toLowerCase s)) (is : v = i + f.nameBase)
      (low : f.min ≤ v) (high : v ≤ f.max)

/-- `*`, `a` and `a-b`. -/
inductive RangeText (f : Field) : Utf16 → Range → Prop where
  | star : RangeText f [Schedule.star] .star
  | one {s a} (first : Spells f s a) : RangeText f s (.one a)
  | span {s t a b} (first : Spells f s a) (last : Spells f t b) (le : a ≤ b) :
      RangeText f (s ++ dash :: t) (.span a b)

/-- A range, or one with a step of at least 1. -/
inductive ItemText (f : Field) : Utf16 → Item → Prop where
  | plain {s r} (range : RangeText f s r) : ItemText f s ⟨r, none⟩
  | stepped {s t r n} (range : RangeText f s r) (step : Digits t n) (pos : 1 ≤ n) :
      ItemText f (s ++ slash :: t) ⟨r, some n⟩

/-- A comma list. -/
def FieldText (f : Field) (s : Utf16) (items : List Item) : Prop :=
  ∃ texts, texts ≠ [] ∧ s = [comma].intercalate texts ∧ List.Forall₂ (ItemText f) texts items

/-- The parts of a text between its spaces. -/
def words (text : Utf16) : List Utf16 := (text.splitOnP isSpace).filter fun w => !w.isEmpty

structure Items where
  minutes : List Item
  hours : List Item
  days : List Item
  months : List Item
  weekdays : List Item

/-- Five fields between spaces. -/
def Spelled (text : Utf16) (items : Items) : Prop :=
  ∃ p0 p1 p2 p3 p4, words text = [p0, p1, p2, p3, p4] ∧
    FieldText .minute p0 items.minutes ∧ FieldText .hour p1 items.hours ∧
    FieldText .dayOfMonth p2 items.days ∧ FieldText .month p3 items.months ∧
    FieldText .dayOfWeek p4 items.weekdays

namespace Range

def first (f : Field) : Range → Nat
  | star => f.min
  | one a | span a _ => a

/-- The last value a step may reach: a value with a step goes on to the field's maximum. -/
def last (f : Field) (stepped : Bool) : Range → Nat
  | star => f.top
  | one a => if stepped then f.top else a
  | span _ b => b

end Range

namespace Item

def first (f : Field) (i : Item) : Nat := i.range.first f

def last (f : Field) (i : Item) : Nat := i.range.last f i.step.isSome

def stride (i : Item) : Nat := i.step.getD 1

/-- What an item denotes. -/
def values (f : Field) (i : Item) : Set Nat :=
  {v | v = i.first f ∨ v ≤ i.last f ∧ ∃ k, v = i.first f + k * i.stride}

end Item

/-- What a list of items denotes. -/
def union (f : Field) (items : List Item) : Set Nat := {v | ∃ i ∈ items, v ∈ i.values f}

/-- A cron with the items' sets, where the day of week 7 is 0. -/
structure Denotes (items : Items) (cron : Cron) : Prop where
  minutes : ∀ v, v ∈ cron.minutes ↔ v ∈ union .minute items.minutes
  hours : ∀ v, v ∈ cron.hours ↔ v ∈ union .hour items.hours
  days : ∀ v, v ∈ cron.days ↔ v ∈ union .dayOfMonth items.days
  months : ∀ v, v ∈ cron.months ↔ v ∈ union .month items.months
  weekdays : ∀ d, d ∈ cron.weekdays ↔ ∃ v ∈ union .dayOfWeek items.weekdays, v % 7 = d
  daysStar : cron.daysStar = true ↔ items.days.head?.map Item.range = some .star
  weekdaysStar : cron.weekdaysStar = true ↔ items.weekdays.head?.map Item.range = some .star

/-- Some day of the 400 years from 2000 on matches. -/
def Reachable (cron : Cron) : Prop :=
  ∃ n, cycleStart ≤ n ∧ n < cycleStart + cycleDays ∧ matchesDate cron n = true

/-- What the grammar says of a text and a cron. -/
def Reads (text : Utf16) (cron : Cron) : Prop :=
  ∃ items, Spelled text items ∧ Denotes items cron ∧ Reachable cron

/-- The item `7/n` of the day of week. -/
def Item.SteppedSeven (i : Item) : Prop := i.range = .one 7 ∧ i.step.isSome = true

/-- The only Sunday of a list is in an item `7/n`. -/
def SundayLost (items : List Item) : Prop :=
  (∃ i ∈ items, i.SteppedSeven) ∧
    ∀ i ∈ items, ¬ i.SteppedSeven → ∀ v ∈ i.values .dayOfWeek, v % 7 ≠ 0

/-- The text's only Sunday is in an item `7/n`. -/
def LosesSunday (text : Utf16) : Prop :=
  ∃ items, Spelled text items ∧ SundayLost items.weekdays

end NxgtData.Schedule
