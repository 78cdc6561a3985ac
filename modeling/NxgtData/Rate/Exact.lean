import NxgtData.Rate.Values

/-!
What the script's arithmetic comes to. Divisions round up, `left` is the most
requests that fit, and a state the script stored is read back as the two numbers
it was, as long as the clock stays below 2^53.
-/
namespace NxgtData.Gcra
open Decimal

/-! Division. -/

theorem ceildiv_eq (a : Nat) {b : Nat} (h : 0 < b) : ceildiv a b = (a + b - 1) / b := by
  have div := Nat.div_add_mod (a + b - 1) b
  have mod := Nat.mod_lt (a + b - 1) h
  unfold ceildiv ceildivFrom
  generalize hq : (a + b - 1) / b = q at div ⊢
  rw [Nat.mul_comm] at div
  have enough : ¬ q * b < a := by omega
  have tight : ¬ (q > 0 ∧ (q - 1) * b ≥ a) := by
    rintro ⟨pos, past⟩
    have one := Nat.le_mul_of_pos_left b pos
    rw [Nat.sub_mul, Nat.one_mul] at past
    omega
  simp only [if_neg tight, if_neg enough]

theorem le_ceildiv_mul (a : Nat) {b : Nat} (h : 0 < b) : a ≤ ceildiv a b * b := by
  have div := Nat.div_add_mod (a + b - 1) b
  have mod := Nat.mod_lt (a + b - 1) h
  rw [ceildiv_eq a h, Nat.mul_comm]
  omega

/-- A division rounded up is at most `k` exactly when the product reaches. -/
theorem ceildiv_le_iff (a k : Nat) {b : Nat} (h : 0 < b) : ceildiv a b ≤ k ↔ a ≤ k * b := by
  rw [ceildiv_eq a h]
  constructor
  · intro le
    have up := le_ceildiv_mul a h
    rw [ceildiv_eq a h] at up
    exact up.trans (Nat.mul_le_mul_right b le)
  · intro le
    refine Nat.le_of_lt_succ ((Nat.div_lt_iff_lt_mul h).mpr ?_)
    rw [Nat.succ_mul]
    omega

/-- Ticks to milliseconds rounds up. -/
theorem le_ms_mul {limit : Nat} (h : 0 < limit) (ticks : Nat) :
    ticks ≤ ms limit ticks * 1000 * limit := by
  have inner := le_ceildiv_mul ticks h
  have outer := le_ceildiv_mul (ceildiv ticks limit) (b := 1000) (by decide)
  exact inner.trans (Nat.mul_le_mul_right limit outer)

/-- `left` is the most requests that fit, up to the burst. -/
theorem left_eq (burst : Nat) {unit : Nat} (h : 0 < unit) (free : Nat) :
    left burst unit free = min burst (free / unit) := by
  have div := Nat.div_add_mod free unit
  have mod := Nat.mod_lt free h
  unfold left
  split
  next none => simp [none]
  next =>
    unfold leftFrom
    generalize free / unit = n at div ⊢
    rw [Nat.mul_comm] at div
    have fits : n * unit ≤ free := by omega
    have most : free < (n + 1) * unit := by
      rw [Nat.succ_mul]
      omega
    have below : (if n > burst then burst else n) = min burst n := by
      split <;> omega
    dsimp only
    rw [below]
    have least : min burst n * unit ≤ free :=
      (Nat.mul_le_mul_right unit (min_le_right burst n)).trans fits
    have tight : ¬ (min burst n > 0 ∧ min burst n * unit > free) := by omega
    rw [if_neg tight, if_neg]
    rintro ⟨less, past⟩
    have same : min burst n = n := by omega
    rw [same] at past
    omega

/-! The stored text. -/

theorem span_space {l : List Char} (r : List Char) (h : ∀ c ∈ l, c.isDigit) :
    (l ++ ' ' :: r).span (· ≠ ' ') = (l, ' ' :: r) := by
  have digits : ∀ c ∈ l, decide (c ≠ ' ') = true := fun c mem => by
    refine decide_eq_true fun space => ?_
    rw [space] at mem
    exact absurd (h ' ' mem) (by decide)
  rw [List.span_eq_takeWhile_dropWhile, List.takeWhile_append_of_pos digits,
    List.dropWhile_append_of_pos digits, List.takeWhile_cons_of_neg (by decide),
    List.dropWhile_cons_of_neg (by decide), List.append_nil]

theorem fields_written (base ahead : Nat) :
    fields s!"{base} {ahead}" = some (toString base, toString ahead) := by
  have text : (s!"{base} {ahead}").toList =
      (toString base).toList ++ ' ' :: (toString ahead).toList := by
    simp [ToString.toString]
  have digits : ∀ c ∈ (toString base).toList, c.isDigit := by
    have printed := whole_toString base
    rw [whole, Bool.and_eq_true] at printed
    exact List.all_eq_true.mp printed.2
  unfold fields
  rw [text, span_space _ digits]
  simp only [String.ofList_toList, whole_toString, and_self, if_true]

/-- A state the script wrote is one it reads back, by a clock at most a full
refill behind its base. -/
theorem state_written {rate : Rate} {now base ahead : Nat} (exact : base ≤ safe)
    (fits : ahead ≤ rate.burst * (rate.per * 1000))
    (bounded : rate.burst * (rate.per * 1000) ≤ safe)
    (near : base ≤ now + ceildiv (rate.burst * (rate.per * 1000)) rate.limit) :
    state rate now (some s!"{base} {ahead}") = some (base, ahead) := by
  have short : ∀ n ≤ safe, (toString n).utf8ByteSize ≤ 16 := fun n le => by
    refine (utf8ByteSize_toString_le_iff (by decide)).mpr (lt_of_le_of_lt le (by decide))
  have sizes : ¬ ((toString base).utf8ByteSize > 16 ∨ (toString ahead).utf8ByteSize > 16) := by
    have one := short base exact
    have two := short ahead (fits.trans bounded)
    omega
  unfold state
  simp only [Option.bind_some, fields_written, tonumber_toString]
  rw [if_neg sizes, if_neg (by omega), if_neg (by omega)]

/-! What a call reads, and what it does. -/

/-- The base a call counts from and what is ahead of it, in ticks. -/
def level (rate : Rate) (now : Nat) (stored : Option String) : Nat × Nat :=
  match state rate now stored with
  | some (seen, ahead) =>
      if seen > now then (seen, ahead) else (now, ahead - (now - seen) * rate.limit)
  | none => (now, 0)

/-- The ticks of one request, and of a full bucket. -/
def Rate.unit (rate : Rate) : Nat := rate.per * 1000

def Rate.tolerance (rate : Rate) : Nat := rate.burst * rate.unit

theorem RateValues.tolerance_le (r : RateValues) : r.rate.tolerance ≤ safe := by
  have exact : r.rate.burst * r.rate.per ≤ maxBurstPer := r.exact
  have small : maxBurstPer * 1000 ≤ safe := by decide
  unfold Rate.tolerance Rate.unit
  rw [← Nat.mul_assoc]
  exact (Nat.mul_le_mul_right 1000 exact).trans small

theorem RateValues.limit_pos (r : RateValues) : 0 < r.rate.limit := r.limit.2.1

theorem RateValues.unit_pos (r : RateValues) : 0 < r.rate.unit :=
  Nat.mul_pos r.per.2.1 (by decide)

section Call
variable {key : Option Stored} {now : Nat} {rate : Rate} {cost : Nat} {write : Bool} {base d : Nat}

/-- A call, by the level it reads. -/
theorem gcra_eq (h : level rate now (get key (now / 1000)) = (base, d)) :
    gcra key now rate cost write =
      if cost * rate.unit > rate.tolerance - d then
        (⟨false, left rate.burst rate.unit (rate.tolerance - d),
          ms rate.limit d + ceildiv (base - now) 1000,
          ms rate.limit (cost * rate.unit - (rate.tolerance - d)) + ceildiv (base - now) 1000⟩, key)
      else
        (⟨true, left rate.burst rate.unit (rate.tolerance - d - cost * rate.unit),
          ms rate.limit (d + cost * rate.unit) + ceildiv (base - now) 1000, 0⟩,
          if write ∧ cost > 0 then
            some ⟨s!"{base} {d + cost * rate.unit}", now / 1000 +
              (ms rate.limit (d + cost * rate.unit) + ceildiv (base - now) 1000)⟩
          else key) := by
  unfold level at h
  unfold gcra
  cases found : state rate now (get key (now / 1000)) with
  | none =>
      rw [found] at h
      cases h
      rfl
  | some read =>
      rw [found] at h
      dsimp only at h ⊢
      by_cases later : read.1 > now
      · rw [if_pos later] at h
        cases h
        simp only [if_pos later]
        rfl
      · rw [if_neg later] at h
        cases h
        have drains : (if (now - read.1) * rate.limit < read.2 then
            read.2 - (now - read.1) * rate.limit else 0) =
            read.2 - (now - read.1) * rate.limit := by
          split <;> omega
        simp only [if_neg later, drains]
        rfl

/-- A call is allowed exactly when what it costs fits. -/
theorem gcra_allowed (h : level rate now (get key (now / 1000)) = (base, d)) :
    (gcra key now rate cost write).1.allowed = true ↔ cost * rate.unit ≤ rate.tolerance - d := by
  rw [gcra_eq h]
  split
  next past => simp only [Bool.false_eq_true, false_iff]; omega
  next fits => simp only [true_iff]; omega

/-- A call that writes keeps the base and the level it leaves. -/
theorem gcra_written (h : level rate now (get key (now / 1000)) = (base, d))
    (allowed : (gcra key now rate cost write).1.allowed = true) (writes : write ∧ cost > 0) :
    (gcra key now rate cost write).2 = some ⟨s!"{base} {d + cost * rate.unit}", now / 1000 +
      (ms rate.limit (d + cost * rate.unit) + ceildiv (base - now) 1000)⟩ := by
  rw [gcra_allowed h] at allowed
  rw [gcra_eq h, if_neg (by omega), if_pos writes]

/-- A denial, a peek and a call of no cost leave the key as it was. -/
theorem gcra_unwritten
    (h : ¬ ((gcra key now rate cost write).1.allowed = true ∧ write ∧ cost > 0)) :
    (gcra key now rate cost write).2 = key := by
  cases found : level rate now (get key (now / 1000)) with
  | mk base d =>
      rw [gcra_allowed found] at h
      rw [gcra_eq found]
      split
      next => rfl
      next fits =>
        have idle : ¬ (write ∧ cost > 0) := fun writes => h ⟨by omega, writes⟩
        rw [if_neg idle]

end Call

/-! The level as a theoretical arrival time in ticks. -/

section Level
variable {rate : Rate} {now base ahead : Nat}

/-- A state the script wrote reads as the later of its base and the clock. -/
theorem level_written (exact : base ≤ safe) (fits : ahead ≤ rate.tolerance)
    (bounded : rate.tolerance ≤ safe) (near : base ≤ now + ceildiv rate.tolerance rate.limit) :
    level rate now (some s!"{base} {ahead}") =
      (max base now, max (base * rate.limit + ahead) (max base now * rate.limit) -
        max base now * rate.limit) := by
  unfold level
  rw [state_written exact fits bounded near]
  dsimp only
  by_cases later : base > now
  · rw [if_pos later, max_eq_left later.le, max_eq_left (by omega), Nat.add_sub_cancel_left]
  · have split : now * rate.limit = base * rate.limit + (now - base) * rate.limit := by
      rw [← Nat.add_mul]
      congr 1
      omega
    rw [if_neg later, max_eq_right (by omega)]
    congr 1
    omega

theorem level_none : level rate now none = (now, 0) := rfl

end Level
end NxgtData.Gcra
