import Mathlib.Order.Bounds.Basic
import NxgtData.Rate.Conformance

/-!
The answers of the script are exact: what it says remains is what it then allows, a denied call
is allowed once `retryAfter` has passed, and that is less than two milliseconds more than it
takes.
-/
namespace NxgtData.Gcra
open Decimal

/-- Rounding up twice adds less than a millisecond. -/
theorem ms_mul_lt {limit : Nat} (pos : 0 < limit) {ticks : Nat} (some : 0 < ticks) :
    ms limit ticks * 1000 * limit < ticks + 1000 * limit := by
  have least : ¬ ms limit ticks ≤ ms limit ticks - 1 := by
    have up := le_ms_mul pos ticks
    intro le
    have zero : ms limit ticks = 0 := by omega
    rw [zero] at up
    omega
  have reach : ms limit ticks ≤ ms limit ticks - 1 ↔
      ticks ≤ (ms limit ticks - 1) * 1000 * limit := by
    rw [ms, ceildiv_le_iff _ _ (by decide), ceildiv_le_iff _ _ pos]
  have short : (ms limit ticks - 1) * 1000 * limit < ticks :=
    Nat.not_le.mp fun le => least (reach.mpr le)
  obtain ⟨k, is⟩ : ∃ k, ms limit ticks = k + 1 :=
    ⟨ms limit ticks - 1, by omega⟩
  rw [is] at short ⊢
  rw [Nat.add_sub_cancel] at short
  rw [Nat.add_mul, Nat.one_mul, Nat.add_mul]
  omega

theorem ceildiv_mul_lt (a : Nat) {b : Nat} (pos : 0 < b) : ceildiv a b * b < a + b := by
  have div := Nat.div_mul_le_self (a + b - 1) b
  rw [ceildiv_eq a pos]
  omega

/-! The states that the script stores. -/

/-- The key after any calls, each by a clock of at most 2^53 - 1 microseconds. -/
inductive Reached (rate : Rate) : Option Stored → Prop
  | absent : Reached rate none
  | call {key : Option Stored} (before : Reached rate key) {now : Nat} (clock : now ≤ safe)
      (cost : Nat) (write : Bool) : Reached rate (gcra key now rate cost write).2

/-- The base of a stored text; without one, any clock is past it. -/
def baseOf (key : Option Stored) : Nat :=
  ((key.bind fun s => fields s.text).map fun f => tonumber f.1).getD 0

/-- The script uses a stored state only within its bounds. -/
theorem state_bounds {rate : Rate} {now seen ahead : Nat} {stored : Option String}
    (read : state rate now stored = some (seen, ahead)) :
    seen ≤ safe ∧ ahead ≤ rate.tolerance := by
  unfold state at read
  cases found : stored.bind fields with
  | none =>
      rw [found] at read
      cases read
  | some both =>
      rw [found] at read
      dsimp only at read
      split at read
      · cases read
      split at read
      · cases read
      next known =>
        split at read
        · cases read
        · cases read
          unfold Rate.tolerance Rate.unit
          omega

section Level
variable {rate : Rate} {now : Nat} {text : Option String}

theorem now_le_level : now ≤ (level rate now text).1 := by
  unfold level
  split
  · split
    next later => exact later.le
    next => exact le_rfl
  · exact le_rfl

theorem level_le_safe (clock : now ≤ safe) : (level rate now text).1 ≤ safe := by
  unfold level
  split
  next seen ahead read =>
    split
    next => exact (state_bounds read).1
    next => exact clock
  · exact clock

end Level

section Reached
variable {rate : Rate} {key : Option Stored}

/-- A stored state is a base and what is ahead of it, kept until it has drained. -/
theorem Reached.written (h : Reached rate key) (unit : 0 < rate.unit) : key = none ∨
    ∃ base ahead written, written ≤ base ∧ base ≤ safe ∧ ahead ≤ rate.tolerance ∧
      key = some ⟨s!"{base} {ahead}",
        written / 1000 + (ms rate.limit ahead + ceildiv (base - written) 1000)⟩ := by
  induction h with
  | absent => exact .inl rfl
  | @call key before now clock cost write ih =>
      by_cases counts : (gcra key now rate cost write).1.allowed = true ∧ write ∧ cost > 0
      · right
        have fits := (gcra_allowed rfl).mp counts.1
        have some := Nat.mul_pos counts.2.2 unit
        rw [gcra_written rfl counts.1 counts.2]
        exact ⟨_, _, now, now_le_level, level_le_safe clock, by omega, rfl⟩
      · rw [gcra_unwritten counts]
        exact ih

/-- What a call reads, by the arrival time that the state tells. -/
theorem Reached.reads (h : Reached rate key) (positive : 0 < rate.limit) (unit : 0 < rate.unit)
    (bounded : rate.tolerance ≤ safe) :
    ∃ tat, baseOf key ≤ safe ∧ tat ≤ baseOf key * rate.limit + rate.tolerance ∧
      ∀ now, baseOf key ≤ now + rate.refill →
        level rate now (get key (now / 1000)) = rate.reads (baseOf key) tat now := by
  cases h.written unit with
  | inl none =>
      have zero : baseOf key = 0 := by rw [none]; rfl
      rw [zero]
      refine ⟨0, by unfold safe; omega, by omega, fun now _ => ?_⟩
      rw [none, get, Option.bind_none, level_none, Rate.reads]
      simp
  | inr some =>
      obtain ⟨base, ahead, written, begun, exact, fits, rfl⟩ := some
      have own : baseOf (.some ⟨s!"{base} {ahead}",
          written / 1000 + (ms rate.limit ahead + ceildiv (base - written) 1000)⟩) = base := by
        unfold baseOf
        rw [Option.bind_some]
        dsimp only
        rw [fields_written, Option.map_some, Option.getD_some, tonumber_toString]
      rw [own]
      refine ⟨base * rate.limit + ahead, exact, by omega, fun now near => ?_⟩
      by_cases expired : written / 1000 + (ms rate.limit ahead + ceildiv (base - written) 1000) <
          now / 1000
      · -- the key lived until all of it had drained
        have drained := ends_drained positive begun ahead
        have past : written + (ms rate.limit ahead + ceildiv (base - written) 1000) * 1000 ≤ now := by
          omega
        have full : base * rate.limit + ahead ≤ now * rate.limit := by
          refine drained.trans (Nat.mul_le_mul_right rate.limit ?_)
          unfold Held.ends
          rw [Nat.add_sub_cancel_left]
          exact past
        have later : base ≤ now := by
          refine Nat.le_of_mul_le_mul_right (show base * rate.limit ≤ now * rate.limit by omega)
            positive
        rw [get, Option.bind_some, if_pos expired, level_none, Rate.reads, max_eq_right later,
          max_eq_right full, Nat.sub_self]
      · rw [get, Option.bind_some, if_neg expired]
        exact level_written exact fits bounded near

end Reached

/-! The answers. -/

section Answers
variable {rate : Rate} {key : Option Stored} {now base d cost : Nat} {write : Bool}

/-- A cost that fits is at most the number that does. -/
theorem fits_iff (unit : 0 < rate.unit) (burst : d ≤ rate.tolerance) (n : Nat) :
    n * rate.unit ≤ d ↔ n ≤ left rate.burst rate.unit d := by
  have most : d / rate.unit ≤ rate.burst :=
    (Nat.div_le_div_right burst).trans (Nat.mul_div_cancel _ unit).le
  rw [left_eq _ unit, min_eq_right most, Nat.le_div_iff_mul_le unit]

theorem left_greatest (unit : 0 < rate.unit) {free : Nat} (burst : free ≤ rate.tolerance)
    (h : level rate now (get key (now / 1000)) = (base, rate.tolerance - free)) :
    IsGreatest {n | (gcra key now rate n write).1.allowed = true}
      (left rate.burst rate.unit free) := by
  have allows (n : Nat) : (gcra key now rate n write).1.allowed = true ↔
      n ≤ left rate.burst rate.unit free := by
    rw [gcra_allowed h, Nat.sub_sub_self burst, fits_iff unit burst]
  exact ⟨(allows _).mpr le_rfl, fun n allowed => (allows n).mp allowed⟩

/-- What remains after a call that is counted is what the next one may cost. -/
theorem remaining_greatest (unit : 0 < rate.unit)
    (bounded : rate.tolerance ≤ safe) (fits : d ≤ rate.tolerance) (clock : base ≤ safe)
    (near : base ≤ now + rate.refill) (later : now ≤ base)
    (h : level rate now (get key (now / 1000)) = (base, d)) (write' : Bool) :
    IsGreatest {n | (gcra (gcra key now rate cost true).2 now rate n write').1.allowed = true}
      (gcra key now rate cost write).1.remaining := by
  by_cases counts : (gcra key now rate cost true).1.allowed = true ∧ true = true ∧ cost > 0
  · have enough := (gcra_allowed h).mp counts.1
    have answer : (gcra key now rate cost write).1.remaining =
        left rate.burst rate.unit (rate.tolerance - d - cost * rate.unit) := by
      rw [gcra_eq h, if_neg (by omega)]
    rw [answer, gcra_written h counts.1 counts.2]
    refine @left_greatest _ _ now base write' unit _ (by omega) ?_
    rw [get, Option.bind_some, if_neg (by dsimp only; omega)]
    rw [level_written clock (by omega) bounded near, max_eq_left later, max_eq_left (by omega),
      Nat.add_sub_cancel_left]
    congr 1
    omega
  · have answer : (gcra key now rate cost write).1.remaining =
        left rate.burst rate.unit (rate.tolerance - d) := by
      rw [gcra_eq h]
      split
      next => rfl
      next enough =>
        have idle : cost = 0 := by
          have allowed : (gcra key now rate cost true).1.allowed = true :=
            (gcra_allowed h).mpr (Nat.not_lt.mp enough)
          by_contra some
          exact counts ⟨allowed, rfl, by omega⟩
        rw [idle, Nat.zero_mul, Nat.sub_zero]
    rw [answer, gcra_unwritten counts]
    refine @left_greatest _ _ now base _ unit _ (Nat.sub_le _ _) ?_
    rw [h, Nat.sub_sub_self fits]

/-- The wait that is answered reaches the moment at which `ticks` have drained past `base`. -/
theorem drained_of_wait (positive : 0 < rate.limit) (begun : now ≤ base) {ticks later : Nat}
    (waited : now + 1000 * (ms rate.limit ticks + ceildiv (base - now) 1000) ≤ later) :
    base * rate.limit + ticks ≤ later * rate.limit := by
  have drain := le_ms_mul positive ticks
  have behind := le_ceildiv_mul (base - now) (b := 1000) (by decide)
  have reach : base + ms rate.limit ticks * 1000 ≤ later := by omega
  have product := Nat.mul_le_mul_right rate.limit reach
  rw [Nat.add_mul] at product
  omega

/-- It is less than two milliseconds more than that takes. -/
theorem wait_lt_of_drained (positive : 0 < rate.limit) (begun : now ≤ base) {ticks later : Nat}
    (some : 0 < ticks) (drained : base * rate.limit + ticks ≤ later * rate.limit) :
    now + 1000 * (ms rate.limit ticks + ceildiv (base - now) 1000) < later + 2000 := by
  have drain := ms_mul_lt positive some
  have behind := ceildiv_mul_lt (base - now) (b := 1000) (by decide)
  have product : (base + ms rate.limit ticks * 1000) * rate.limit <
      (later + 1000) * rate.limit := by
    rw [Nat.add_mul, Nat.add_mul]
    omega
  have reach := Nat.lt_of_mul_lt_mul_right product
  omega

end Answers

/-- Of a call that was denied: when it is allowed. -/
theorem allowed_later {rate : Rate} {key : Option Stored} {now later tat cost : Nat}
    {write : Bool} (begun : now ≤ later)
    (ahead : tat ≤ baseOf key * rate.limit + rate.tolerance) (affordable : cost * rate.unit ≤ rate.tolerance)
    (own : level rate now (get key (now / 1000)) = rate.reads (baseOf key) tat now)
    (then_ : level rate later (get key (later / 1000)) = rate.reads (baseOf key) tat later)
    (denied : (gcra key now rate cost write).1.allowed = false) :
    ∃ ticks, 0 < ticks ∧ (gcra key now rate cost write).1.retryAfter =
        ms rate.limit ticks + ceildiv (max (baseOf key) now - now) 1000 ∧
      ((gcra key later rate cost write).1.allowed = true ↔
        max (baseOf key) now * rate.limit + ticks ≤ later * rate.limit) := by
  have refused : ¬ (gcra key now rate cost write).1.allowed = true := by
    rw [denied]
    exact Bool.false_ne_true
  unfold Rate.reads at own then_
  rw [gcra_allowed own] at refused
  have counted := Nat.mul_le_mul_right rate.limit (le_max_left (baseOf key) now)
  refine ⟨cost * rate.unit - (rate.tolerance - (max tat (max (baseOf key) now * rate.limit) -
    max (baseOf key) now * rate.limit)), by omega, ?_, ?_⟩
  · rw [gcra_eq own, if_pos (by omega)]
  · rw [gcra_allowed then_]
    rcases le_total later (baseOf key) with early | late
    · have least := Nat.mul_le_mul_right rate.limit early
      have same : max (baseOf key) later = max (baseOf key) now := by omega
      rw [same]
      omega
    · have most : max (baseOf key) now ≤ later := max_le late begun
      have grows := Nat.mul_le_mul_right rate.limit most
      rw [max_eq_right late]
      omega

/-- The answers are exact: of any state that the script can have stored, by any clock of at most
2^53 - 1 microseconds that is at most a full refill behind its base. -/
theorem gcra_exact (r : RateValues) {key : Option Stored} (reached : Reached r.rate key)
    {now : Nat} (clock : now ≤ safe) (near : baseOf key ≤ now + r.rate.refill) (cost : Nat)
    (write : Bool) :
    ((gcra key now r.rate cost write).1.allowed = true ↔
      cost ≤ (gcra key now r.rate 0 false).1.remaining) ∧
    (∀ write', IsGreatest
      {n | (gcra (gcra key now r.rate cost true).2 now r.rate n write').1.allowed = true}
      (gcra key now r.rate cost write).1.remaining) ∧
    (cost ≤ r.rate.burst → (gcra key now r.rate cost write).1.allowed = false →
      (∀ later, now + 1000 * (gcra key now r.rate cost write).1.retryAfter ≤ later →
        (gcra key later r.rate cost write).1.allowed = true) ∧
      ∀ later, now ≤ later → (gcra key later r.rate cost write).1.allowed = true →
        now + 1000 * (gcra key now r.rate cost write).1.retryAfter < later + 2000) := by
  have positive := r.limit_pos
  have unit := r.unit_pos
  have bounded := r.tolerance_le
  obtain ⟨tat, exact, ahead, reads⟩ := reached.reads positive unit bounded
  have own := reads now near
  unfold Rate.reads at own
  have fits : max tat (max (baseOf key) now * r.rate.limit) -
      max (baseOf key) now * r.rate.limit ≤ r.rate.tolerance := by
    have grows := Nat.mul_le_mul_right r.rate.limit (le_max_left (baseOf key) now)
    omega
  refine ⟨?_, fun write' => ?_, fun affordable denied => ?_⟩
  · have peek : (gcra key now r.rate 0 false).1.remaining = left r.rate.burst r.rate.unit
        (r.rate.tolerance - (max tat (max (baseOf key) now * r.rate.limit) -
          max (baseOf key) now * r.rate.limit)) := by
      rw [gcra_eq own, Nat.zero_mul, if_neg (Nat.not_lt_zero _), Nat.sub_zero]
    rw [gcra_allowed own, peek, fits_iff unit (Nat.sub_le _ _)]
  · exact remaining_greatest unit bounded fits (max_le exact clock)
      (max_le near (Nat.le_add_right _ _)) (le_max_right _ _) own write'
  · have spends : cost * r.rate.unit ≤ r.rate.tolerance := Nat.mul_le_mul_right _ affordable
    have begun : now ≤ max (baseOf key) now := le_max_right _ _
    refine ⟨fun later waited => ?_, fun later after allowed => ?_⟩
    · obtain ⟨ticks, -, wait, iff⟩ := allowed_later (show now ≤ later by omega) ahead spends
        (reads now near) (reads later (by omega)) denied
      rw [wait] at waited
      exact iff.mpr (drained_of_wait positive begun waited)
    · obtain ⟨ticks, some, wait, iff⟩ := allowed_later after ahead spends (reads now near)
        (reads later (by omega)) denied
      rw [wait]
      exact wait_lt_of_drained positive begun some (iff.mp allowed)

/-- A burst, by a clock that a second's stored base is then ahead of by a millisecond. -/
theorem gcra_exact_tenPerSecond :
    let key := (gcra none 5000000 tenPerSecond.rate 10 true).2
    (gcra key 4999000 tenPerSecond.rate 3 true).1 = ⟨false, 0, 1001, 301⟩ ∧
    ∀ later, 4999000 + 1000 * 301 ≤ later →
      (gcra key later tenPerSecond.rate 3 true).1.allowed = true := by
  have reached : Reached tenPerSecond.rate (gcra none 5000000 tenPerSecond.rate 10 true).2 :=
    .call .absent (by decide) 10 true
  have answer : (gcra (gcra none 5000000 tenPerSecond.rate 10 true).2 4999000 tenPerSecond.rate 3
      true).1 = ⟨false, 0, 1001, 301⟩ := by
    decide +kernel
  obtain ⟨-, -, waits⟩ := @gcra_exact tenPerSecond _ reached 4999000 (by decide)
    (by decide +kernel) 3 true
  obtain ⟨enough, -⟩ := waits (by decide) (by rw [answer])
  rw [answer] at enough
  exact ⟨answer, enough⟩

/-- A peek answers what would remain if it counted, and a clock past 2^53 - 1 microseconds
stores a base that is not read back. -/
theorem remaining_not_allowed :
    (¬ ∀ cost, IsGreatest {n | (gcra (gcra none 0 tenPerSecond.rate cost false).2 0
        tenPerSecond.rate n true).1.allowed = true}
      (gcra none 0 tenPerSecond.rate cost false).1.remaining) ∧
    ¬ ∀ now, IsGreatest {n | (gcra (gcra none now tenPerSecond.rate 1 true).2 now
        tenPerSecond.rate n true).1.allowed = true}
      (gcra none now tenPerSecond.rate 1 true).1.remaining := by
  constructor
  · intro every
    have most := (every 1).2 (show 10 ∈ {n | _} from by
      change (gcra (gcra none 0 tenPerSecond.rate 1 false).2 0 tenPerSecond.rate 10
        true).1.allowed = true
      decide +kernel)
    exact absurd most (by decide +kernel)
  · intro every
    have most := (every (safe + 1)).2 (show 10 ∈ {n | _} from by
      change (gcra (gcra none (safe + 1) tenPerSecond.rate 1 true).2 (safe + 1) tenPerSecond.rate
        10 true).1.allowed = true
      decide +kernel)
    exact absurd most (by decide +kernel)

end NxgtData.Gcra
