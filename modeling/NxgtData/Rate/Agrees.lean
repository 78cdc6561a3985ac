import NxgtData.Rate.Rounded

/-!
A call of the script in doubles answers and stores what the call in whole numbers does, and the
check of a rate in doubles lets through what the exact check does.
-/
namespace NxgtData.Gcra.Doubles
open Binary64 Traced

section Call
variable {quotient : Binary64 → Binary64 → Binary64}

theorem thousandth_le {a : Nat} (ha : a ≤ 2 ^ 53) : Gcra.ceildiv a 1000 ≤ 2 ^ 52 := by
  have less := ceildiv_mul_lt a (b := 1000) (by decide)
  omega

theorem ms_le {limit ticks : Nat} (pos : 1 ≤ limit) (ht : ticks ≤ 2 ^ 53) :
    Gcra.ms limit ticks ≤ 2 ^ 52 :=
  thousandth_le ((ceildiv_le_self ticks pos).trans ht)

theorem settle_gives (near : Near quotient) {rate : Rate} {now base d cost : Nat}
    (limit : 1 ≤ rate.limit) (small : rate.limit ≤ safe) (per : 1 ≤ rate.per)
    (burst : 1 ≤ rate.burst)
    (bounded : rate.tolerance ≤ safe) (baseLe : base ≤ safe) (fits : d ≤ rate.tolerance)
    (affordable : cost ≤ rate.burst) (write : Bool) :
    (settle quotient (wholeFigures rate now base d cost) (rate.limit : Binary64)
      (rate.burst : Binary64) (cost : Binary64) write).Gives Operands
      (if cost * rate.unit > rate.tolerance - d then
        (⟨false, Gcra.left rate.burst rate.unit (rate.tolerance - d),
          Gcra.ms rate.limit d + Gcra.ceildiv (base - now) 1000,
          Gcra.ms rate.limit (cost * rate.unit - (rate.tolerance - d)) +
            Gcra.ceildiv (base - now) 1000⟩, none)
      else
        (⟨true, Gcra.left rate.burst rate.unit (rate.tolerance - d - cost * rate.unit),
          Gcra.ms rate.limit (d + cost * rate.unit) + Gcra.ceildiv (base - now) 1000, 0⟩,
          if write ∧ cost > 0 then
            some (s!"{base} {d + cost * rate.unit}",
              Gcra.ms rate.limit (d + cost * rate.unit) + Gcra.ceildiv (base - now) 1000)
          else none)) := by
  have unitPos : 1 ≤ rate.unit := Nat.mul_pos per (by decide)
  have needLe : cost * rate.unit ≤ rate.tolerance := Nat.mul_le_mul_right _ affordable
  have burstLe : rate.burst ≤ rate.tolerance := Nat.le_mul_of_pos_right _ unitPos
  have unitLe : rate.unit ≤ rate.tolerance := Nat.le_mul_of_pos_left _ burst
  unfold safe at small bounded baseLe
  have lag : Gcra.ceildiv (base - now) 1000 ≤ 2 ^ 52 := thousandth_le (by omega)
  have time {ticks : Nat} (ht : ticks ≤ rate.tolerance) :
      (ms quotient (rate.limit : Binary64) (ticks : Binary64)).Gives Operands
        ((Gcra.ms rate.limit ticks : Nat) : Binary64) :=
    ms_gives near (by omega) limit (by omega)
  have later {ticks : Nat} (ht : ticks ≤ rate.tolerance) :
      printed ((Gcra.ms rate.limit ticks : Nat) +
          (Gcra.ceildiv (base - now) 1000 : Nat) : Binary64) =
        Gcra.ms rate.limit ticks + Gcra.ceildiv (base - now) 1000 :=
    printed_add (ms_le limit (by omega)) lag
  have remains {free : Nat} (hf : free ≤ rate.tolerance) :
      (left quotient (rate.burst : Binary64) (rate.unit : Binary64)
        (free : Binary64)).Gives Operands ((Gcra.left rate.burst rate.unit free : Nat) : Binary64) :=
    left_gives near (by omega) unitPos (by omega) (by omega)
  have most {free : Nat} : printed ((Gcra.left rate.burst rate.unit free : Nat) : Binary64) =
      Gcra.left rate.burst rate.unit free := by
    refine printed_whole ?_
    rw [left_eq rate.burst unitPos free]
    omega
  unfold settle
  by_cases past : rate.tolerance - d < cost * rate.unit
  · have denied : (wholeFigures rate now base d cost).after = none := if_pos past
    have short : ((cost * rate.unit : Nat) : Binary64) - ((rate.tolerance - d : Nat) : Binary64) =
        ((cost * rate.unit - (rate.tolerance - d) : Nat) : Binary64) :=
      natCast_sub (by omega) past.le
    rw [denied, if_pos past]
    dsimp only [wholeFigures]
    rw [short]
    refine (remains (by omega)).bind ((time fits).bind ((time (by omega)).bind ?_))
    rw [most, later fits, later (by omega)]
    exact gives_pure _
  · have allowed : (wholeFigures rate now base d cost).after =
        some ((d + cost * rate.unit : Nat) : Binary64) := if_neg past
    have rest : ((rate.tolerance - d : Nat) : Binary64) - ((cost * rate.unit : Nat) : Binary64) =
        ((rate.tolerance - d - cost * rate.unit : Nat) : Binary64) :=
      natCast_sub (by omega) (by omega)
    have costIff : (0 : Binary64) < (cost : Binary64) ↔ cost > 0 := by
      have costLe : cost ≤ cost * rate.unit := Nat.le_mul_of_pos_right _ unitPos
      exact natCast_lt (m := 0) (by decide) (by omega)
    have afterLe : d + cost * rate.unit ≤ rate.tolerance := by omega
    rw [allowed, if_neg past]
    dsimp only [wholeFigures]
    simp only [costIff, rest]
    split
    next writes =>
      refine (time afterLe).bind ((remains (by omega)).bind ((time afterLe).bind ?_))
      rw [most, later afterLe, format, format, printed_whole (by omega), printed_whole (by omega)]
      exact gives_pure _
    next =>
      refine (remains (by omega)).bind ((time afterLe).bind ?_)
      rw [most, later afterLe]
      exact gives_pure _

/-- The clock is read exactly. -/
theorem clock_eq {now : Nat} (le : now ≤ safe) : clock now = (now : Binary64) := by
  unfold safe at le
  unfold clock
  have seconds : ((now / 1000000 : Nat) : Binary64) * 1000000 =
      ((now / 1000000 * 1000000 : Nat) : Binary64) :=
    natCast_mul (by omega) (n := 1000000) (by decide)
  rw [seconds, natCast_add (by omega) (by omega), Nat.div_add_mod']

theorem gcra_gives (near : Near quotient) (r : RateValues) (key : Option Stored) {now cost : Nat}
    (time : now ≤ safe) (affordable : cost ≤ r.rate.burst) (write : Bool) :
    (gcra quotient key now r.rate cost write).Gives Operands
      (Gcra.gcra key now r.rate cost write) := by
  have small : r.rate.limit ≤ safe := r.limit.2.2
  cases h : level r.rate now (get key (now / 1000)) with
  | mk base d =>
      have baseLe : base ≤ safe := by
        have le : (level r.rate now (get key (now / 1000))).1 ≤ safe := level_le_safe time
        rwa [h] at le
      unfold gcra
      rw [clock_eq time, gcra_eq h]
      refine (figures_gives near time r.limit.2.1 small r.tolerance_le r.burst.2.1 r.per.2.1
        affordable h).bind ?_
      refine (settle_gives near r.limit.2.1 small r.per.2.1 r.burst.2.1 r.tolerance_le baseLe
        (level_fits h) affordable write).bind ?_
      by_cases past : cost * r.rate.unit > r.rate.tolerance - d
      · simp only [if_pos past]
        exact gives_pure _
      · simp only [if_neg past]
        by_cases writes : write = true ∧ cost > 0
        · simp only [if_pos writes]
          exact gives_pure _
        · simp only [if_neg writes]
          exact gives_pure _

end Call

/-! The check of a rate. -/

/-- Neither the product nor the quotient is rounded past its bound. -/
theorem accepts_iff (limit per burst : Count 1) : Accepts limit per burst ↔
    burst.1 * per.1 ≤ maxBurstPer ∧ burst.1 * per.1 ≤ maxRefill * limit.1 := by
  have small (n : Count 1) : n.1 ≤ 2 ^ 53 := by
    have le := n.2.2
    unfold maxSafeInteger at le
    omega
  have product : (burst.1 : Binary64) * (per.1 : Binary64) = ((burst.1 * per.1 : Nat) : Binary64) :=
    natCast_mul (small burst) (small per)
  unfold Accepts
  rw [product, lt_natCast_of_lt (by decide), Nat.not_lt]
  refine and_congr_right fun le => ?_
  have bound : maxBurstPer = 9007199254740 := by decide
  have years : maxRefill = 315360000000 := by decide
  generalize burst.1 * per.1 = p at le
  have pos : (0 : ℚ) < limit.1 := by exact_mod_cast limit.2.1
  have value : ((p : Binary64) / (limit.1 : Binary64)).val =
      Binary64.round ((p : ℚ) / (limit.1 : ℚ)) := by
    rw [val_div, natCast_eq, natCast_eq, (whole_natCast (by omega)).val,
      (whole_natCast (small limit)).val, Int.cast_natCast, Int.cast_natCast]
  have whole : (maxRefill : Binary64).val = (maxRefill : ℤ) :=
    (whole_natCast (by rw [years]; decide)).val
  change ¬ (maxRefill : Binary64).val < _ ↔ _
  rw [value, whole]
  constructor
  · intro short
    by_contra exceeds
    -- The rate is then below 29, so the quotient passes the bound by 1/32 at least.
    refine short ?_
    have few : limit.1 ≤ 32 := by
      have product := Nat.not_le.mp exceeds
      rw [years] at product
      omega
    have least : (((maxRefill : ℤ) * 32 + 1 : ℤ) : ℚ) * 2 ^ (-5 : ℤ) ≤ (p : ℚ) / limit.1 := by
      rw [le_div_iff₀ pos]
      have next : (maxRefill : ℚ) * limit.1 + 1 ≤ p := by exact_mod_cast Nat.not_le.mp exceeds
      have top : (limit.1 : ℚ) ≤ 32 := by exact_mod_cast few
      have fifth : (2 : ℚ) ^ (-5 : ℤ) = 1 / 32 := by norm_num
      rw [fifth]
      push_cast
      linarith
    have kept := round_mono least
    rw [round_grid (by rw [years]; decide) (by decide)] at kept
    refine lt_of_lt_of_le ?_ kept
    have fifth : (2 : ℚ) ^ (-5 : ℤ) = 1 / 32 := by norm_num
    rw [fifth]
    push_cast
    linarith
  · intro refills
    have most : (p : ℚ) / limit.1 ≤ ((maxRefill : ℤ) : ℚ) := by
      rw [div_le_iff₀ pos]
      exact_mod_cast refills
    have kept := round_mono most
    rw [round_int (by rw [years]; decide)] at kept
    exact not_lt.mpr kept

/-! Calls of an accepted rate. -/

/-- A whole number from 0 to 2^53 - 1. -/
def Kept (x : Binary64) : Prop := ∃ n : Nat, n ≤ safe ∧ x = (n : Binary64)

structure Figures.AllKept (f : Figures) : Prop where
  unit : Kept f.unit
  tolerance : Kept f.tolerance
  d : Kept f.d
  free : Kept f.free
  need : Kept f.need
  after : ∀ x, f.after = some x → Kept x

theorem wholeFigures_kept (r : RateValues) {now base d cost : Nat} (fits : d ≤ r.rate.tolerance)
    (affordable : cost ≤ r.rate.burst) : (wholeFigures r.rate now base d cost).AllKept := by
  have bounded := r.tolerance_le
  have needLe : cost * r.rate.unit ≤ r.rate.tolerance := Nat.mul_le_mul_right _ affordable
  have unitLe : r.rate.unit ≤ r.rate.tolerance := Nat.le_mul_of_pos_left _ r.burst.2.1
  refine ⟨⟨_, by omega, rfl⟩, ⟨_, bounded, rfl⟩, ⟨_, by omega, rfl⟩, ⟨_, by omega, rfl⟩,
    ⟨_, by omega, rfl⟩, fun x after => ?_⟩
  unfold wholeFigures at after
  dsimp only at after
  split at after
  · cases after
  · cases after
    exact ⟨_, by omega, rfl⟩

/-- For every accepted rate, stored text, clock and cost, and whatever doubles within one of the
true quotients the divisions give, the script answers and stores what exact arithmetic does: its
locals are whole numbers below 2^53, each division is of operands up to 2^53, and what `ceildiv`
and `left` give for such is the quotient rounded up and the most that fits. -/
theorem script_exact {quotient : Binary64 → Binary64 → Binary64} (near : Near quotient)
    {limit per burst : Count 1} (accepted : Accepts limit per burst) (key : Option Stored)
    {now cost : Nat} (time : now ≤ safe) (affordable : cost ≤ burst.1) (write : Bool) :
    (gcra quotient key now ⟨limit.1, per.1, burst.1⟩ cost write).Gives Operands
        (Gcra.gcra key now ⟨limit.1, per.1, burst.1⟩ cost write) ∧
      (figures quotient (get key (now / 1000)) (clock now) per.1 limit.1 burst.1
        cost).value.AllKept ∧
      (∀ a b : Nat, a ≤ 2 ^ 53 → 1 ≤ b → b ≤ 2 ^ 53 → ∃ c : Nat,
        (ceildiv quotient a b).value = c ∧ IsLeast { k | a ≤ k * b } c) ∧
      ∀ free : Nat, free ≤ burst.1 * (per.1 * 1000) → ∃ n : Nat,
        (left quotient burst.1 (per.1 * 1000 : Nat) free).value = n ∧
          IsGreatest { n | n ≤ burst.1 ∧ n * (per.1 * 1000) ≤ free } n := by
  rw [accepts_iff] at accepted
  obtain ⟨r, is⟩ : ∃ r : RateValues, r.rate = ⟨limit.1, per.1, burst.1⟩ :=
    ⟨{ limit, per, burst, exact := accepted.1, refills := accepted.2 }, rfl⟩
  have perIs : r.rate.per = per.1 := congrArg Rate.per is
  have burstIs : r.rate.burst = burst.1 := congrArg Rate.burst is
  have limitIs : r.rate.limit = limit.1 := congrArg Rate.limit is
  have unitPos := r.unit_pos
  have bounded := r.tolerance_le
  have unitLe : r.rate.unit ≤ r.rate.tolerance := Nat.le_mul_of_pos_left _ r.burst.2.1
  have burstLe : r.rate.burst ≤ r.rate.tolerance := Nat.le_mul_of_pos_right _ unitPos
  unfold safe at bounded
  rw [← is, ← perIs, ← burstIs, ← limitIs]
  rw [← burstIs] at affordable
  refine ⟨gcra_gives near r key time affordable write, ?_, fun a b ha pos hb => ?_,
    fun free hf => ?_⟩
  · cases h : level r.rate now (get key (now / 1000)) with
    | mk base d =>
        have gives := figures_gives near time r.limit.2.1 r.limit.2.2 r.tolerance_le r.burst.2.1
          r.per.2.1 affordable h
        rw [clock_eq time, gives.1]
        exact wholeFigures_kept r (level_fits h) affordable
  · refine ⟨_, (ceildiv_gives near ha pos hb).1, le_ceildiv_mul a pos, fun k reaches => ?_⟩
    exact (ceildiv_le_iff a k pos).mpr reaches
  · change free ≤ r.rate.tolerance at hf
    refine ⟨_, (left_gives near (by omega) unitPos (by omega) (by omega)).1, ?_⟩
    rw [left_eq r.rate.burst unitPos free]
    refine ⟨⟨Nat.min_le_left _ _, ?_⟩, fun n fits => ?_⟩
    · exact (Nat.le_div_iff_mul_le unitPos).mp (Nat.min_le_right _ _)
    · exact Nat.le_min.mpr ⟨fits.1, (Nat.le_div_iff_mul_le unitPos).mpr fits.2⟩

/-- Five a minute, by the division of doubles, on a key somebody else wrote. -/
theorem script_exact_login :
    (gcra (· / ·) (some ⟨"9007199254740993 1", 1700000000001⟩) 1700000000000000 ⟨5, 60000, 5⟩ 1
      true).value = (⟨true, 4, 12000, 0⟩, some ⟨"1700000000000000 60000000", 1700000012000⟩) :=
  (@script_exact _ near_div ⟨5, by decide⟩ ⟨60000, by decide⟩ ⟨5, by decide⟩
    ((accepts_iff _ _ _).mpr (by decide)) _ _ _ (by decide) (by decide) true).1.1.trans
      (by decide +kernel)

end NxgtData.Gcra.Doubles
