import Mathlib.Algebra.Order.Floor.Ring
import Mathlib.Data.Int.Log
import Mathlib.Data.Rat.Floor
import Mathlib.Tactic.FieldSimp
import Mathlib.Tactic.Linarith
import Mathlib.Tactic.Positivity

/-!
Doubles as the rational numbers that they are: 53 bits of precision, rounded to the nearest,
ties to even. Infinities are left out, so a result below 2^1024 is the one IEEE 754 has; whole
numbers up to 2^53 are kept, and rounding never passes one.
-/
namespace NxgtData

/-- The nearest whole number, the even one of two. -/
def nearest (x : ℚ) : ℤ :=
  if 2 * (x - ⌊x⌋) < 1 then ⌊x⌋
  else if 1 < 2 * (x - ⌊x⌋) then ⌊x⌋ + 1
  else if ⌊x⌋ % 2 = 0 then ⌊x⌋ else ⌊x⌋ + 1

theorem floor_le_nearest (x : ℚ) : ⌊x⌋ ≤ nearest x := by
  unfold nearest
  split_ifs <;> omega

theorem nearest_le_floor (x : ℚ) : nearest x ≤ ⌊x⌋ + 1 := by
  unfold nearest
  split_ifs <;> omega

theorem nearest_int (z : ℤ) : nearest z = z := by
  unfold nearest
  rw [Int.floor_intCast, sub_self, if_pos (by norm_num)]

theorem nearest_mono {x y : ℚ} (le : x ≤ y) : nearest x ≤ nearest y := by
  rcases (Int.floor_le_floor le).lt_or_eq with less | same
  · have low := nearest_le_floor x
    have high := floor_le_nearest y
    omega
  · unfold nearest
    rw [same]
    split_ifs <;> first | omega | (exfalso; linarith)

namespace Binary64

/-- The exponent of the last place of a positive number; below 2^-1022 it is the least. -/
def lastPlace (x : ℚ) : ℤ := max (Int.log 2 x - 52) (-1074)

/-- A number that is not negative, rounded. -/
def roundPos (x : ℚ) : ℚ := nearest (x / 2 ^ lastPlace x) * 2 ^ lastPlace x

def round (x : ℚ) : ℚ := if x < 0 then -roundPos (-x) else roundPos x

theorem pow_pos (e : ℤ) : (0 : ℚ) < 2 ^ e := zpow_pos (by norm_num) e

theorem lt_lastPlace {x : ℚ} : x < 2 ^ (lastPlace x + 53) := by
  have log := Int.lt_zpow_succ_log_self (b := 2) (by decide) x
  push_cast at log
  refine lt_of_lt_of_le log (zpow_le_zpow_right₀ (by norm_num) ?_)
  unfold lastPlace
  omega

/-- Rounding leaves at most 2^53 units of the last place. -/
theorem units_le {x : ℚ} (pos : 0 ≤ x) :
    0 ≤ nearest (x / 2 ^ lastPlace x) ∧ nearest (x / 2 ^ lastPlace x) ≤ 2 ^ 53 := by
  have low : ((0 : ℤ) : ℚ) ≤ x / 2 ^ lastPlace x := by
    rw [Int.cast_zero]
    exact div_nonneg pos (pow_pos _).le
  have high : x / 2 ^ lastPlace x ≤ ((2 ^ 53 : ℤ) : ℚ) := by
    rw [div_le_iff₀ (pow_pos _)]
    have most := (lt_lastPlace (x := x)).le
    rw [zpow_add₀ (by norm_num)] at most
    push_cast
    rw [mul_comm]
    exact_mod_cast most
  constructor
  · have le := nearest_mono low
    rwa [nearest_int] at le
  · have le := nearest_mono high
    rwa [nearest_int] at le

theorem roundPos_nonneg {x : ℚ} (pos : 0 ≤ x) : 0 ≤ roundPos x :=
  mul_nonneg (by exact_mod_cast (units_le pos).1) (pow_pos _).le

theorem roundPos_zero : roundPos 0 = 0 := by
  unfold roundPos
  rw [zero_div, show (0 : ℚ) = ((0 : ℤ) : ℚ) from rfl, nearest_int, Int.cast_zero, zero_mul]

theorem roundPos_mono {x y : ℚ} (pos : 0 ≤ x) (le : x ≤ y) : roundPos x ≤ roundPos y := by
  rcases pos.lt_or_eq with pos | zero
  · have places : lastPlace x ≤ lastPlace y := by
      have log := Int.log_mono_right (b := 2) pos le
      unfold lastPlace
      omega
    rcases places.lt_or_eq with less | same
    · -- `y` is a power of two or more past `x`, and a power of two is kept.
      have normal : Int.log 2 y = lastPlace y + 52 := by
        unfold lastPlace at less ⊢
        omega
      have below := (units_le pos.le).2
      have above : 2 ^ 52 ≤ nearest (y / 2 ^ lastPlace y) := by
        have part : ((2 ^ 52 : ℤ) : ℚ) ≤ y / 2 ^ lastPlace y := by
          rw [le_div_iff₀ (pow_pos _)]
          have least := Int.zpow_log_le_self (b := 2) (by decide) (lt_of_lt_of_le pos le)
          rw [normal] at least
          push_cast at least
          rw [zpow_add₀ (by norm_num)] at least
          push_cast
          rw [mul_comm]
          exact_mod_cast least
        have le := nearest_mono part
        rwa [nearest_int] at le
      have left : roundPos x ≤ 2 ^ 53 * 2 ^ lastPlace x :=
        mul_le_mul_of_nonneg_right (by exact_mod_cast below) (pow_pos _).le
      have right : (2 ^ 52 : ℚ) * 2 ^ lastPlace y ≤ roundPos y :=
        mul_le_mul_of_nonneg_right (by exact_mod_cast above) (pow_pos _).le
      have step : (2 : ℚ) * 2 ^ lastPlace x ≤ 2 ^ lastPlace y := by
        rw [← zpow_one_add₀ (by norm_num)]
        exact zpow_le_zpow_right₀ (by norm_num) (by omega)
      linarith
    · unfold roundPos
      rw [same]
      refine mul_le_mul_of_nonneg_right ?_ (pow_pos _).le
      exact_mod_cast nearest_mono (div_le_div_of_nonneg_right le (pow_pos _).le)
  · rw [← zero, roundPos_zero]
    exact roundPos_nonneg (by linarith)

theorem round_mono {x y : ℚ} (le : x ≤ y) : round x ≤ round y := by
  unfold round
  split_ifs with negX negY
  · have back := roundPos_mono (x := -y) (y := -x) (by linarith) (by linarith)
    linarith
  · have low := roundPos_nonneg (x := -x) (by linarith)
    have high := roundPos_nonneg (x := y) (by linarith)
    linarith
  · linarith
  · exact roundPos_mono (by linarith) le

/-! What is kept. -/

theorem roundPos_grid {m : ℕ} {e : ℤ} (small : m < 2 ^ 53) (least : -1074 ≤ e) :
    roundPos (m * 2 ^ e) = m * 2 ^ e := by
  rcases Nat.eq_zero_or_pos m with zero | pos
  · rw [zero, Nat.cast_zero, zero_mul, roundPos_zero]
  · have value : (0 : ℚ) < m * 2 ^ e := mul_pos (by exact_mod_cast pos) (pow_pos e)
    have log : Int.log 2 ((m : ℚ) * 2 ^ e) < 53 + e := by
      rw [← Int.lt_zpow_iff_log_lt (by decide) value]
      push_cast
      rw [zpow_add₀ (by norm_num)]
      exact mul_lt_mul_of_pos_right (by exact_mod_cast small) (pow_pos e)
    have place : lastPlace (m * 2 ^ e) ≤ e := by
      unfold lastPlace
      omega
    unfold roundPos
    generalize lastPlace (m * 2 ^ e) = p at place
    have whole : (m : ℚ) * 2 ^ e / 2 ^ p = ((m * 2 ^ (e - p).toNat : ℤ) : ℚ) := by
      rw [div_eq_iff (pow_pos p).ne']
      push_cast
      rw [← zpow_natCast, Int.toNat_of_nonneg (by omega), mul_assoc, ← zpow_add₀ (by norm_num),
        sub_add_cancel]
    rw [whole, nearest_int, ← whole, div_mul_cancel₀ _ (pow_pos p).ne']

/-- Up to 2^53 units of a place are kept. -/
theorem round_grid {z e : ℤ} (small : z.natAbs ≤ 2 ^ 53) (least : -1074 ≤ e) :
    round (z * 2 ^ e) = z * 2 ^ e := by
  have grid : roundPos (z.natAbs * 2 ^ e) = z.natAbs * 2 ^ e := by
    rcases small.lt_or_eq with less | most
    · exact roundPos_grid less least
    · have half : ((z.natAbs : ℕ) : ℚ) * 2 ^ e = ((2 ^ 52 : ℕ) : ℚ) * 2 ^ (e + 1) := by
        rw [most, zpow_add₀ (by norm_num)]
        push_cast
        ring
      rw [half]
      exact roundPos_grid (by norm_num) (by omega)
  have pos : (0 : ℚ) ≤ (z.natAbs : ℚ) * 2 ^ e := mul_nonneg (Nat.cast_nonneg _) (pow_pos e).le
  unfold round
  rcases Int.natAbs_eq z with up | down
  · have value : (z : ℚ) = (z.natAbs : ℚ) := by
      rw [← Int.cast_natCast, ← up]
    rw [value, if_neg (by linarith), grid]
  · have value : (z : ℚ) = -(z.natAbs : ℚ) := by
      rw [← Int.cast_natCast, ← Int.cast_neg, ← down]
    rw [value, neg_mul, neg_neg]
    split_ifs with less
    · rw [grid]
    · have zero : (z.natAbs : ℚ) * 2 ^ e = 0 := by linarith
      rw [zero, neg_zero, roundPos_zero]

theorem round_int {z : ℤ} (small : z.natAbs ≤ 2 ^ 53) : round z = z := by
  have grid := round_grid (e := 0) small (by decide)
  rwa [zpow_zero, mul_one] at grid

theorem round_roundPos {x : ℚ} (pos : 0 ≤ x) : round (roundPos x) = roundPos x := by
  refine round_grid ?_ (le_max_right _ _)
  have units := units_le pos
  omega

theorem round_neg (x : ℚ) : round (-x) = -round x := by
  unfold round
  rcases lt_trichotomy x 0 with neg | none | pos
  · rw [if_neg (by linarith), if_pos neg, neg_neg]
  · simp [none, roundPos_zero]
  · rw [if_pos (by linarith), if_neg (by linarith), neg_neg]

theorem round_round (x : ℚ) : round (round x) = round x := by
  rcases lt_or_ge x 0 with neg | pos
  · have back : round x = -roundPos (-x) := if_pos neg
    rw [back, round_neg, round_roundPos (by linarith)]
  · have same : round x = roundPos x := if_neg (not_lt.mpr pos)
    rw [same, round_roundPos pos]

/-- Just past 2^53 the even neighbour is 2^53. -/
theorem round_past : round ((2 ^ 53 + 1 : ℤ) : ℚ) = ((2 ^ 53 : ℤ) : ℚ) := by
  have log : Int.log 2 (((2 ^ 53 + 1 : ℕ)) : ℚ) = 53 := by
    rw [Int.log_natCast, @Nat.log_eq_of_pow_le_of_lt_pow 2 53 _ (by norm_num) (by norm_num)]
    rfl
  have place : lastPlace (((2 ^ 53 + 1 : ℕ)) : ℚ) = 1 := by
    rw [lastPlace, log]
    decide
  have floor : ⌊(((2 ^ 53 + 1 : ℕ)) : ℚ) / 2 ^ (1 : ℤ)⌋ = 2 ^ 52 := by
    rw [Int.floor_eq_iff]
    norm_num
  have same : ((2 ^ 53 + 1 : ℤ) : ℚ) = (((2 ^ 53 + 1 : ℕ)) : ℚ) := by norm_num
  rw [same]
  unfold round roundPos nearest
  rw [place, floor]
  norm_num

end Binary64

/-- A finite double. -/
@[ext] structure Binary64 where
  val : ℚ
  rounded : Binary64.round val = val

namespace Binary64

def ofRat (x : ℚ) : Binary64 := ⟨round x, round_round x⟩

instance : IntCast Binary64 := ⟨fun z => ofRat z⟩
instance : NatCast Binary64 := ⟨fun n => ((n : ℤ) : Binary64)⟩
instance (n : ℕ) : OfNat Binary64 n := ⟨((n : ℤ) : Binary64)⟩
instance : Add Binary64 := ⟨fun x y => ofRat (x.val + y.val)⟩
instance : Sub Binary64 := ⟨fun x y => ofRat (x.val - y.val)⟩
instance : Mul Binary64 := ⟨fun x y => ofRat (x.val * y.val)⟩
instance : Div Binary64 := ⟨fun x y => ofRat (x.val / y.val)⟩
instance : LT Binary64 := ⟨fun x y => x.val < y.val⟩
instance : LE Binary64 := ⟨fun x y => x.val ≤ y.val⟩
instance (x y : Binary64) : Decidable (x < y) := inferInstanceAs (Decidable (x.val < y.val))
instance (x y : Binary64) : Decidable (x ≤ y) := inferInstanceAs (Decidable (x.val ≤ y.val))

/-- `math.ceil` and `math.floor`. -/
def ceil (x : Binary64) : Binary64 := ((⌈x.val⌉ : ℤ) : Binary64)

def floor (x : Binary64) : Binary64 := ((⌊x.val⌋ : ℤ) : Binary64)

/-! Whole numbers. -/

/-- A whole number that is a double, as all smaller ones are. -/
def Whole (z : ℤ) : Prop := -2 ^ 53 ≤ z ∧ z ≤ 2 ^ 53

theorem Whole.val {z : ℤ} (h : Whole z) : (z : Binary64).val = z :=
  round_int (by unfold Whole at h; omega)

theorem val_div (x y : Binary64) : (x / y).val = round (x.val / y.val) := rfl

theorem zero_eq : (0 : Binary64) = ((0 : ℤ) : Binary64) := rfl

theorem one_eq : (1 : Binary64) = ((1 : ℤ) : Binary64) := rfl

theorem natCast_eq (n : ℕ) : (n : Binary64) = ((n : ℤ) : Binary64) := rfl

theorem whole_zero : Whole 0 := by unfold Whole; decide

theorem whole_one : Whole 1 := by unfold Whole; decide

section Whole
variable {a b z : ℤ}

theorem lt_iff (ha : Whole a) (hb : Whole b) : (a : Binary64) < (b : Binary64) ↔ a < b := by
  change (a : Binary64).val < (b : Binary64).val ↔ a < b
  rw [ha.val, hb.val, Int.cast_lt]

theorem le_iff (ha : Whole a) (hb : Whole b) : (a : Binary64) ≤ (b : Binary64) ↔ a ≤ b := by
  change (a : Binary64).val ≤ (b : Binary64).val ↔ a ≤ b
  rw [ha.val, hb.val, Int.cast_le]

theorem add_eq (ha : Whole a) (hb : Whole b) :
    (a : Binary64) + (b : Binary64) = ((a + b : ℤ) : Binary64) := by
  change ofRat _ = ofRat _
  rw [ha.val, hb.val, Int.cast_add]

theorem sub_eq (ha : Whole a) (hb : Whole b) :
    (a : Binary64) - (b : Binary64) = ((a - b : ℤ) : Binary64) := by
  change ofRat _ = ofRat _
  rw [ha.val, hb.val, Int.cast_sub]

theorem mul_eq (ha : Whole a) (hb : Whole b) :
    (a : Binary64) * (b : Binary64) = ((a * b : ℤ) : Binary64) := by
  change ofRat _ = ofRat _
  rw [ha.val, hb.val, Int.cast_mul]

/-- The rounding of a number that may be too large does not pass a whole number. -/
theorem lt_whole_iff (hz : Whole (z - 1)) (hz' : Whole z) :
    (a : Binary64) < (z : Binary64) ↔ a < z := by
  change (a : Binary64).val < (z : Binary64).val ↔ a < z
  rw [hz'.val]
  constructor
  · intro less
    by_contra ge
    have past : round z ≤ round a := round_mono (by exact_mod_cast Int.not_lt.mp ge)
    rw [show round z = z from hz'.val] at past
    exact absurd less (not_lt.mpr past)
  · intro less
    have short : round a ≤ round ((z - 1 : ℤ) : ℚ) := round_mono (by exact_mod_cast by omega)
    rw [show round ((z - 1 : ℤ) : ℚ) = ((z - 1 : ℤ) : ℚ) from hz.val] at short
    refine lt_of_le_of_lt short ?_
    exact_mod_cast show z - 1 < z by omega

theorem whole_lt_iff (hz : Whole z) (hz' : Whole (z + 1)) :
    (z : Binary64) < (a : Binary64) ↔ z < a := by
  change (z : Binary64).val < (a : Binary64).val ↔ z < a
  rw [hz.val]
  constructor
  · intro less
    by_contra ge
    have past : round a ≤ round z := round_mono (by exact_mod_cast Int.not_lt.mp ge)
    rw [show round z = z from hz.val] at past
    exact absurd less (not_lt.mpr past)
  · intro less
    have short : round ((z + 1 : ℤ) : ℚ) ≤ round a := round_mono (by exact_mod_cast less)
    rw [show round ((z + 1 : ℤ) : ℚ) = ((z + 1 : ℤ) : ℚ) from hz'.val] at short
    refine lt_of_lt_of_le ?_ short
    exact_mod_cast Int.lt_succ z

theorem whole_le_iff (hz : Whole (z - 1)) (hz' : Whole z) :
    (z : Binary64) ≤ (a : Binary64) ↔ z ≤ a := by
  rw [← Int.not_lt, ← lt_whole_iff hz hz']
  exact (not_lt (a := (a : Binary64).val)).symm

theorem le_whole_iff (hz : Whole z) (hz' : Whole (z + 1)) :
    (a : Binary64) ≤ (z : Binary64) ↔ a ≤ z := by
  rw [← Int.not_lt, ← whole_lt_iff hz hz']
  exact (not_lt (b := (a : Binary64).val)).symm

end Whole

/-! Natural numbers. -/

section Natural
variable {m n : ℕ}

theorem whole_natCast (hm : m ≤ 2 ^ 53) : Whole (m : ℤ) := by
  unfold Whole
  omega

theorem natCast_lt (hm : m ≤ 2 ^ 53) (hn : n ≤ 2 ^ 53) :
    (m : Binary64) < (n : Binary64) ↔ m < n := by
  rw [natCast_eq, natCast_eq, lt_iff (whole_natCast hm) (whole_natCast hn)]
  exact Int.ofNat_lt

theorem natCast_add (hm : m ≤ 2 ^ 53) (hn : n ≤ 2 ^ 53) :
    (m : Binary64) + (n : Binary64) = ((m + n : ℕ) : Binary64) := by
  rw [natCast_eq, natCast_eq, add_eq (whole_natCast hm) (whole_natCast hn)]
  rfl

theorem natCast_mul (hm : m ≤ 2 ^ 53) (hn : n ≤ 2 ^ 53) :
    (m : Binary64) * (n : Binary64) = ((m * n : ℕ) : Binary64) := by
  rw [natCast_eq, natCast_eq, mul_eq (whole_natCast hm) (whole_natCast hn)]
  rfl

theorem natCast_sub (hm : m ≤ 2 ^ 53) (le : n ≤ m) :
    (m : Binary64) - (n : Binary64) = ((m - n : ℕ) : Binary64) := by
  rw [natCast_eq, natCast_eq, sub_eq (whole_natCast hm) (whole_natCast (le.trans hm)),
    ← Int.ofNat_sub le]
  rfl

/-- A quotient that is whole is not rounded. -/
theorem natCast_mul_div (hm : m * n ≤ 2 ^ 53) (hn : n ≤ 2 ^ 53) (pos : 0 < n) :
    ((m * n : ℕ) : Binary64) / (n : Binary64) = (m : Binary64) := by
  have divisor : (n : ℚ) ≠ 0 := by exact_mod_cast pos.ne'
  have quotient : ((m * n : ℕ) : Binary64).val / (n : Binary64).val = (m : ℤ) := by
    rw [natCast_eq, natCast_eq, (whole_natCast hm).val, (whole_natCast hn).val]
    push_cast
    exact mul_div_cancel_right₀ _ divisor
  change ofRat _ = ofRat _
  rw [quotient]

/-- A number that may be too large, compared with one that is not. -/
theorem natCast_lt_of_le (hn : n ≤ 2 ^ 53) : (m : Binary64) < (n : Binary64) ↔ m < n := by
  rw [natCast_eq, natCast_eq, lt_whole_iff (by unfold Whole; omega) (whole_natCast hn)]
  exact Int.ofNat_lt

theorem lt_natCast_of_lt (hm : m < 2 ^ 53) : (m : Binary64) < (n : Binary64) ↔ m < n := by
  rw [natCast_eq, natCast_eq, whole_lt_iff (whole_natCast hm.le) (by unfold Whole; omega)]
  exact Int.ofNat_lt

end Natural

/-- Up to 2^53 rounding moves a number by less than one. -/
theorem round_near {x : ℚ} (pos : 0 ≤ x) (le : x ≤ ((2 ^ 53 : ℤ) : ℚ)) : |round x - x| ≤ 1 := by
  have low : round (⌊x⌋ : ℚ) ≤ round x := round_mono (Int.floor_le x)
  have high : round x ≤ round (⌈x⌉ : ℚ) := round_mono (Int.le_ceil x)
  have least : 0 ≤ ⌊x⌋ := Int.floor_nonneg.mpr pos
  have most : ⌈x⌉ ≤ 2 ^ 53 := Int.ceil_le.mpr le
  have order := Int.floor_le_ceil x
  rw [round_int (by omega)] at low high
  have below := Int.lt_floor_add_one x
  have above := Int.ceil_lt_add_one x
  rw [abs_le]
  constructor <;> linarith

theorem le_of_le_past {x : Binary64} (le : x.val ≤ ((2 ^ 53 + 1 : ℤ) : ℚ)) :
    x.val ≤ ((2 ^ 53 : ℤ) : ℚ) := by
  have most := round_mono le
  rwa [round_past, x.rounded] at most

/-! Sums of natural numbers. -/

theorem val_add_natCast (x : Binary64) (n : ℕ) :
    (x + (n : Binary64)).val = round (x.val + round n) := by
  change round (x.val + round ((n : ℤ) : ℚ)) = _
  rw [Int.cast_natCast]

theorem round_nonneg {x : ℚ} (pos : 0 ≤ x) : 0 ≤ round x := by
  have le := round_mono (show ((0 : ℤ) : ℚ) ≤ x by simpa using pos)
  rw [round_int (by decide)] at le
  simpa using le

theorem le_round {x : ℚ} (past : ((2 ^ 53 : ℤ) : ℚ) ≤ x) : ((2 ^ 53 : ℤ) : ℚ) ≤ round x := by
  have le := round_mono past
  rwa [round_int (by decide)] at le

theorem past_sum {x : Binary64} (past : ((2 ^ 53 : ℤ) : ℚ) ≤ x.val) (sizes : List ℕ) :
    ((2 ^ 53 : ℤ) : ℚ) ≤
      (sizes.foldl (fun (sum : Binary64) (n : ℕ) => sum + (n : Binary64)) x).val := by
  induction sizes generalizing x with
  | nil => exact past
  | cons n sizes ih =>
      refine ih ?_
      rw [val_add_natCast]
      have pos := round_nonneg (Nat.cast_nonneg (α := ℚ) n)
      exact le_round (by linarith)

/-- A sum that is rounded at each step is compared with a number below 2^53 as the exact one. -/
theorem sum_le_iff {a max : ℕ} (exact_ : a ≤ 2 ^ 53) (small : max < 2 ^ 53) (sizes : List ℕ) :
    sizes.foldl (fun (sum : Binary64) (n : ℕ) => sum + (n : Binary64)) (a : Binary64) ≤
      (max : Binary64) ↔ a + sizes.sum ≤ max := by
  have most : (max : Binary64).val = ((max : ℤ) : ℚ) := (whole_natCast small.le).val
  induction sizes generalizing a with
  | nil =>
      rw [List.foldl_nil, List.sum_nil, natCast_eq, natCast_eq,
        le_iff (whole_natCast exact_) (whole_natCast small.le)]
      exact Int.ofNat_le
  | cons n sizes ih =>
      rw [List.foldl_cons, List.sum_cons]
      by_cases fits : a + n ≤ 2 ^ 53
      · rw [natCast_add exact_ (by omega), ← Nat.add_assoc]
        exact ih fits
      · have past : ((2 ^ 53 : ℤ) : ℚ) ≤ ((a : Binary64) + (n : Binary64)).val := by
          rw [val_add_natCast]
          have own : (a : Binary64).val = ((a : ℤ) : ℚ) := (whole_natCast exact_).val
          have least : (0 : ℚ) ≤ ((a : ℤ) : ℚ) := by simp
          refine le_round ?_
          rw [own]
          by_cases large : n ≤ 2 ^ 53
          · have whole := round_int (z := n) (by omega)
            rw [Int.cast_natCast] at whole
            rw [whole]
            have exceeds : ((2 ^ 53 : ℤ) : ℚ) ≤ ((a + n : ℕ) : ℚ) := by
              exact_mod_cast (Nat.not_le.mp fits).le
            push_cast at exceeds ⊢
            exact exceeds
          · have more := le_round (x := (n : ℚ)) (by exact_mod_cast (Nat.not_le.mp large).le)
            linarith
        have ends := past_sum past sizes
        have below : (max : Binary64).val < ((2 ^ 53 : ℤ) : ℚ) := by
          rw [most]
          exact_mod_cast small
        exact ⟨fun le => absurd (ends.trans le) (not_le_of_gt below), fun le => by omega⟩

end Binary64
end NxgtData
