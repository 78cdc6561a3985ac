import NxgtData.Rate.Doubles
import NxgtData.Rate.Answers

/-!
The script in doubles gives what the script in whole numbers does, whatever double within one of
the true quotient a division gives: every number that is kept is a whole one below 2^53, and
what is only compared is not rounded past what it is compared with.
-/
namespace NxgtData.Gcra.Doubles
open Binary64 Traced

/-- Operands of a division are whole, at most 2^53, and the divisor is not 0. -/
def Operands (d : Binary64 × Binary64) : Prop :=
  ∃ a b : Nat, d = ((a : Binary64), (b : Binary64)) ∧ a ≤ 2 ^ 53 ∧ 1 ≤ b ∧ b ≤ 2 ^ 53

/-- A division of such operands is within one of the true quotient. -/
def Near (quotient : Binary64 → Binary64 → Binary64) : Prop :=
  ∀ a b : Nat, a ≤ 2 ^ 53 → 1 ≤ b → b ≤ 2 ^ 53 →
    |(quotient (a : Binary64) (b : Binary64)).val - (a : ℚ) / (b : ℚ)| ≤ 1

/-- The division of doubles is. -/
theorem near_div : Near (· / ·) := by
  intro a b ha pos hb
  have wholeA : Whole a := by unfold Whole; omega
  have wholeB : Whole b := by unfold Whole; omega
  have value : ((a : Binary64) / (b : Binary64)).val = Binary64.round ((a : ℚ) / (b : ℚ)) := by
    rw [val_div, natCast_eq, natCast_eq, wholeA.val, wholeB.val, Int.cast_natCast,
      Int.cast_natCast]
  have divisor : (1 : ℚ) ≤ b := by exact_mod_cast pos
  rw [value]
  refine round_near (div_nonneg (Nat.cast_nonneg a) (Nat.cast_nonneg b)) ?_
  have top : (a : ℚ) ≤ ((2 ^ 53 : ℤ) : ℚ) := by exact_mod_cast ha
  exact (div_le_self (Nat.cast_nonneg a) divisor).trans top

/-! The corrections. -/

/-- A quotient rounded up, from an estimate within one of it. -/
theorem ceildivFrom_whole {q a b c : ℤ} (ha : 0 ≤ a ∧ a ≤ 2 ^ 53) (hb : Whole b)
    (reach : ∀ k, a ≤ k * b ↔ c ≤ k) (zero : 0 ≤ c) (most : c ≤ 2 ^ 53) (hq : q ≤ 2 ^ 53)
    (low : c ≤ q + 1) (high : q ≤ c + 1) : ceildivFrom q a b = (c : Binary64) := by
  have wholeA : Whole a := by unfold Whole; omega
  have wholeA' : Whole (a - 1) := by unfold Whole; omega
  have wholeQ : Whole q := by unfold Whole; omega
  have wholeQ' : Whole (q - 1) := by unfold Whole; omega
  have zeroIff : (0 : Binary64) < (q : Binary64) ↔ 0 < q := by
    rw [zero_eq, lt_iff whole_zero wholeQ]
  have less : (q : Binary64) - 1 = ((q - 1 : ℤ) : Binary64) := by
    rw [one_eq, sub_eq wholeQ whole_one]
  have more : (q : Binary64) + 1 = ((q + 1 : ℤ) : Binary64) := by
    rw [one_eq, add_eq wholeQ whole_one]
  have short {k : ℤ} (hk : Whole k) : (k : Binary64) * (b : Binary64) < (a : Binary64) ↔ k < c := by
    rw [mul_eq hk hb, lt_whole_iff wholeA' wholeA, ← Int.not_le, reach, Int.not_le]
  have past {k : ℤ} (hk : Whole k) : (a : Binary64) ≤ (k : Binary64) * (b : Binary64) ↔ c ≤ k := by
    rw [mul_eq hk hb, whole_le_iff wholeA' wholeA, reach]
  -- The first correction leaves at most `c`, the second at least.
  obtain ⟨k, down, is⟩ : ∃ k : ℤ, (if (0 : Binary64) < (q : Binary64) ∧
      (a : Binary64) ≤ ((q - 1 : ℤ) : Binary64) * (b : Binary64) then ((q - 1 : ℤ) : Binary64)
      else (q : Binary64)) = (k : Binary64) ∧ (k = c ∨ k + 1 = c) := by
    by_cases above : q = c + 1
    · refine ⟨q - 1, if_pos ⟨zeroIff.mpr (by omega), (past wholeQ').mpr (by omega)⟩, ?_⟩
      omega
    · refine ⟨q, if_neg fun both => ?_, by omega⟩
      have tight := (past wholeQ').mp both.2
      omega
  have wholeK : Whole k := by unfold Whole; omega
  unfold ceildivFrom
  dsimp only
  rw [less, down]
  rcases is with same | under
  · rw [if_neg fun fewer => absurd ((short wholeK).mp fewer) (by omega), same]
  · rw [if_pos ((short wholeK).mpr (by omega)), one_eq, add_eq wholeK whole_one, under]

/-- The most that fits, from an estimate within one of the quotient. -/
theorem leftFrom_whole {n burst unit free e : ℤ} (hf : 0 ≤ free ∧ free < 2 ^ 53)
    (hu : Whole unit) (hb : 0 ≤ burst ∧ burst ≤ 2 ^ 53) (fits : ∀ k, k * unit ≤ free ↔ k ≤ e)
    (zero : 0 ≤ e) (hn : n ≤ 2 ^ 53) (low : e ≤ n + 1) (high : n ≤ e + 1) :
    leftFrom n burst unit free = ((min burst e : ℤ) : Binary64) := by
  have wholeF : Whole free := by unfold Whole; omega
  have wholeF' : Whole (free + 1) := by unfold Whole; omega
  have wholeN : Whole n := by unfold Whole; omega
  have wholeB : Whole burst := by unfold Whole; omega
  have most {k : ℤ} (hk : Whole k) :
      (k : Binary64) * (unit : Binary64) ≤ (free : Binary64) ↔ k ≤ e := by
    rw [mul_eq hk hu, le_whole_iff wholeF wholeF', fits]
  have past {k : ℤ} (hk : Whole k) :
      (free : Binary64) < (k : Binary64) * (unit : Binary64) ↔ e < k := by
    rw [mul_eq hk hu, whole_lt_iff wholeF wholeF', ← Int.not_le, fits, Int.not_le]
  obtain ⟨m, capped, cap⟩ : ∃ m : ℤ, (if (burst : Binary64) < (n : Binary64) then (burst : Binary64)
      else (n : Binary64)) = (m : Binary64) ∧ m = min n burst := by
    by_cases exceeds : burst < n
    · exact ⟨burst, if_pos ((lt_iff wholeB wholeN).mpr exceeds), by omega⟩
    · exact ⟨n, if_neg fun less => exceeds ((lt_iff wholeB wholeN).mp less), by omega⟩
  have wholeM : Whole m := by unfold Whole; omega
  have less : (m : Binary64) - 1 = ((m - 1 : ℤ) : Binary64) := by
    rw [one_eq, sub_eq wholeM whole_one]
  obtain ⟨k, down, is⟩ : ∃ k : ℤ, (if (0 : Binary64) < (m : Binary64) ∧
      (free : Binary64) < (m : Binary64) * (unit : Binary64) then ((m - 1 : ℤ) : Binary64)
      else (m : Binary64)) = (k : Binary64) ∧ (k = min m e) := by
    by_cases above : e < m
    · refine ⟨m - 1, if_pos ⟨?_, (past wholeM).mpr above⟩, by omega⟩
      rw [zero_eq, lt_iff whole_zero wholeM]
      omega
    · refine ⟨m, if_neg fun both => ?_, by omega⟩
      exact above ((past wholeM).mp both.2)
  have wholeK : Whole k := by unfold Whole; omega
  have wholeK' : Whole (k + 1) ∨ burst ≤ k := by unfold Whole; omega
  unfold leftFrom
  dsimp only
  rw [capped, less, down, one_eq, add_eq wholeK whole_one]
  by_cases room : k < burst ∧ k + 1 ≤ e
  · have wholeK'' : Whole (k + 1) := wholeK'.resolve_right (by omega)
    rw [if_pos ⟨(lt_iff wholeK wholeB).mpr room.1, (most wholeK'').mpr room.2⟩]
    congr 1
    omega
  · rw [if_neg]
    · congr 1
      omega
    · rintro ⟨under, fit⟩
      have below := (lt_iff wholeK wholeB).mp under
      exact room ⟨below, (most (wholeK'.resolve_right (by omega))).mp fit⟩

/-! The parts of the script. -/

section Parts
variable {quotient : Binary64 → Binary64 → Binary64}

theorem divide_gives (quotient : Binary64 → Binary64 → Binary64) (a b : Nat)
    (ha : a ≤ 2 ^ 53) (pos : 1 ≤ b) (hb : b ≤ 2 ^ 53) :
    (divide quotient a b).Gives Operands (quotient a b) := by
  refine ⟨rfl, fun d mem => ?_⟩
  rw [divide, List.mem_singleton] at mem
  exact ⟨a, b, mem, ha, pos, hb⟩

theorem reach_iff {a b : Nat} (pos : 1 ≤ b) (k : ℤ) :
    (a : ℤ) ≤ k * b ↔ (Gcra.ceildiv a b : ℤ) ≤ k := by
  rcases lt_or_ge k 0 with neg | nonneg
  · have product : k * b < 0 := Int.mul_neg_of_neg_of_pos neg (by omega)
    omega
  · obtain ⟨n, rfl⟩ := Int.eq_ofNat_of_zero_le nonneg
    exact_mod_cast (ceildiv_le_iff a n pos).symm

theorem ceildiv_le_self (a : Nat) {b : Nat} (pos : 1 ≤ b) : Gcra.ceildiv a b ≤ a := by
  rw [ceildiv_le_iff a a pos]
  exact Nat.le_mul_of_pos_right a pos

theorem ceildiv_gives (near : Near quotient) {a b : Nat} (ha : a ≤ 2 ^ 53) (pos : 1 ≤ b)
    (hb : b ≤ 2 ^ 53) :
    (ceildiv quotient a b).Gives Operands ((Gcra.ceildiv a b : Nat) : Binary64) := by
  have divisor : (0 : ℚ) < b := by exact_mod_cast pos
  have above : (a : ℚ) / b ≤ (Gcra.ceildiv a b : ℚ) := by
    rw [div_le_iff₀ divisor]
    exact_mod_cast le_ceildiv_mul a pos
  have below : (Gcra.ceildiv a b : ℚ) - 1 < (a : ℚ) / b := by
    rw [lt_div_iff₀ divisor]
    have less : ¬ (a : ℤ) ≤ ((Gcra.ceildiv a b : ℤ) - 1) * b := by
      rw [reach_iff pos]
      omega
    exact_mod_cast Int.not_le.mp less
  have small := ceildiv_le_self a pos
  obtain ⟨low, high⟩ := abs_le.mp (near a b ha pos hb)
  generalize hx : quotient a b = x at low high
  have most : x.val ≤ ((2 ^ 53 : ℤ) : ℚ) := by
    refine le_of_le_past ?_
    have top : (Gcra.ceildiv a b : ℚ) ≤ ((2 ^ 53 : ℤ) : ℚ) := by exact_mod_cast small.trans ha
    push_cast at top ⊢
    linarith
  have first := divide_gives quotient a b ha pos hb
  refine first.bind ?_
  rw [hx]
  have up := Int.le_ceil x.val
  have value : ceildivFrom x.ceil a b = ((Gcra.ceildiv a b : Nat) : Binary64) := by
    refine ceildivFrom_whole ⟨by omega, by omega⟩ (whole_natCast hb) (reach_iff pos) (by omega)
      (by omega) (Int.ceil_le.mpr most) ?_ ?_
    · have close : ((Gcra.ceildiv a b : ℤ) : ℚ) < ((⌈x.val⌉ + 2 : ℤ) : ℚ) := by
        push_cast
        linarith
      have order : (Gcra.ceildiv a b : ℤ) < ⌈x.val⌉ + 2 := by exact_mod_cast close
      omega
    · refine Int.ceil_le.mpr ?_
      push_cast
      linarith
  rw [value]
  exact gives_pure _

theorem left_gives (near : Near quotient) {burst unit free : Nat} (hb : burst ≤ 2 ^ 53)
    (pos : 1 ≤ unit) (hu : unit ≤ 2 ^ 53) (hf : free < 2 ^ 53) :
    (left quotient burst unit free).Gives Operands
      ((Gcra.left burst unit free : Nat) : Binary64) := by
  have zeroIff : (free : Binary64) ≤ 0 ↔ free = 0 := by
    rw [zero_eq, natCast_eq, le_iff (whole_natCast hf.le) whole_zero]
    omega
  unfold left
  by_cases none : free = 0
  · rw [if_pos (zeroIff.mpr none), none, Gcra.left, if_pos rfl]
    exact gives_pure _
  · rw [if_neg fun le => none (zeroIff.mp le), left_eq burst pos free]
    have divisor : (0 : ℚ) < unit := by exact_mod_cast pos
    have fits (k : ℤ) : k * unit ≤ free ↔ k ≤ ((free / unit : Nat) : ℤ) := by
      rw [Int.natCast_ediv]
      exact (Int.le_ediv_iff_mul_le (by omega)).symm
    have small := Nat.div_le_self free unit
    have below : ((free / unit : Nat) : ℚ) ≤ (free : ℚ) / unit := by
      rw [le_div_iff₀ divisor]
      exact_mod_cast (fits _).mpr le_rfl
    have above : (free : ℚ) / unit < ((free / unit : Nat) : ℚ) + 1 := by
      rw [div_lt_iff₀ divisor]
      have next := mt (fits ((free / unit : Nat) + 1 : ℤ)).mp (by omega)
      exact_mod_cast Int.not_le.mp next
    generalize free / unit = e at fits small below above
    obtain ⟨low, high⟩ := abs_le.mp (near free unit hf.le pos hu)
    have first := divide_gives quotient free unit hf.le pos hu
    refine first.bind ?_
    generalize quotient free unit = x at low high
    have down := Int.floor_le x.val
    have past := Int.lt_floor_add_one x.val
    have value : leftFrom x.floor burst unit free = ((min burst e : Nat) : Binary64) := by
      have up : (⌊x.val⌋ : ℚ) < ((e + 2 : ℤ) : ℚ) := by
        push_cast
        linarith
      have close : ((e - 1 : ℤ) : ℚ) < ((⌊x.val⌋ + 1 : ℤ) : ℚ) := by
        push_cast
        linarith
      have most : ⌊x.val⌋ < e + 2 := by exact_mod_cast up
      have least : (e : ℤ) - 1 < ⌊x.val⌋ + 1 := by exact_mod_cast close
      have value := leftFrom_whole (n := ⌊x.val⌋) ⟨Int.natCast_nonneg free, by omega⟩
        (whole_natCast hu) ⟨Int.natCast_nonneg burst, by omega⟩ fits (Int.natCast_nonneg e)
        (by omega) (by omega) (by omega)
      rw [← Nat.cast_min] at value
      exact value
    rw [value]
    exact gives_pure _

theorem ms_gives (near : Near quotient) {limit ticks : Nat} (ht : ticks ≤ 2 ^ 53)
    (pos : 1 ≤ limit) (hl : limit ≤ 2 ^ 53) :
    (ms quotient limit ticks).Gives Operands ((Gcra.ms limit ticks : Nat) : Binary64) :=
  (ceildiv_gives near ht pos hl).bind
    (ceildiv_gives near ((ceildiv_le_self ticks pos).trans ht) (b := 1000) (by decide) (by decide))

theorem printed_whole {n : Nat} (le : n ≤ 2 ^ 53) : printed (n : Binary64) = n := by
  unfold printed
  rw [natCast_eq, (whole_natCast le).val, nearest_int]
  rfl

/-- A time in milliseconds and the lag are added exactly. -/
theorem printed_add {a b : Nat} (ha : a ≤ 2 ^ 52) (hb : b ≤ 2 ^ 52) :
    printed ((a : Binary64) + (b : Binary64)) = a + b := by
  rw [natCast_add (by omega) (by omega), printed_whole (by omega)]

theorem state_gives (near : Near quotient) {rate : Rate} {now : Nat} (clock : now ≤ safe)
    (limit : 1 ≤ rate.limit) (small : rate.limit ≤ safe) (bounded : rate.tolerance ≤ safe)
    (stored : Option String) :
    (state quotient (rate.tolerance : Binary64) (rate.limit : Binary64) (now : Binary64)
      stored).Gives Operands ((Gcra.state rate now stored).map fun read =>
        ((read.1 : Binary64), (read.2 : Binary64))) := by
  unfold safe at clock small bounded
  unfold state Gcra.state
  cases stored.bind fields with
  | none => exact gives_pure _
  | some found =>
      obtain ⟨b, a⟩ := found
      dsimp only
      have tolerance : rate.burst * (rate.per * 1000) = rate.tolerance := rfl
      have safeIff : (safe : Binary64) < tonumber b ↔ Decimal.tonumber b > safe :=
        lt_natCast_of_lt (by decide)
      have aheadIff : (rate.tolerance : Binary64) < tonumber a ↔
          Decimal.tonumber a > rate.tolerance := lt_natCast_of_lt (by omega)
      rw [tolerance]
      simp only [safeIff, aheadIff]
      split
      · exact gives_pure _
      split
      · exact gives_pure _
      next known =>
        have baseLe : Decimal.tonumber b ≤ safe := by omega
        unfold safe at baseLe
        have laterIff : (now : Binary64) < tonumber b ↔ Decimal.tonumber b > now :=
          natCast_lt (by omega) (by omega)
        by_cases later : Decimal.tonumber b > now
        · rw [if_pos (laterIff.mpr later)]
          refine (ceildiv_gives near (by omega) limit (by omega)).bind ?_
          have least := ceildiv_le_self rate.tolerance limit
          have ahead : tonumber b - (now : Binary64) =
              ((Decimal.tonumber b - now : Nat) : Binary64) :=
            natCast_sub (by omega) later.le
          have farIff : ((Gcra.ceildiv rate.tolerance rate.limit : Nat) : Binary64) <
              tonumber b - (now : Binary64) ↔
                Decimal.tonumber b - now > Gcra.ceildiv rate.tolerance rate.limit := by
            rw [ahead]
            exact natCast_lt (by omega) (by omega)
          simp only [farIff, later, true_and]
          split
          · exact gives_pure _
          · exact gives_pure _
        · rw [if_neg fun less => later (laterIff.mp less), if_neg fun both => later both.1]
          exact gives_pure _

theorem level_fits {rate : Rate} {now base d : Nat} {stored : Option String}
    (h : level rate now stored = (base, d)) : d ≤ rate.tolerance := by
  unfold level at h
  cases read : Gcra.state rate now stored with
  | none =>
      rw [read] at h
      cases h
      exact Nat.zero_le _
  | some both =>
      obtain ⟨seen, ahead⟩ := both
      have fits := (state_bounds read).2
      rw [read] at h
      dsimp only at h
      split at h
      · cases h
        exact fits
      · cases h
        omega

/-- What has drained is only compared, unless it is less than what was ahead. -/
theorem levelOf_whole {rate : Rate} {now base d : Nat} {stored : Option String}
    (clock : now ≤ safe) (small : rate.limit ≤ safe) (bounded : rate.tolerance ≤ safe)
    (h : level rate now stored = (base, d)) :
    levelOf (rate.limit : Binary64) (now : Binary64) ((Gcra.state rate now stored).map fun read =>
      ((read.1 : Binary64), (read.2 : Binary64))) = ((base : Binary64), (d : Binary64)) := by
  unfold level at h
  cases read : Gcra.state rate now stored with
  | none =>
      rw [read] at h
      cases h
      rfl
  | some both =>
      obtain ⟨seen, ahead⟩ := both
      obtain ⟨seenLe, aheadLe⟩ := state_bounds read
      unfold safe at clock small bounded seenLe
      rw [read] at h
      dsimp only at h
      have laterIff : (now : Binary64) < (seen : Binary64) ↔ seen > now :=
        natCast_lt (by omega) (by omega)
      rw [Option.map_some, levelOf]
      simp only [laterIff]
      split at h
      next later =>
        cases h
        rw [if_pos later]
      next past =>
        cases h
        rw [if_neg past]
        have drained : ((now : Binary64) - (seen : Binary64)) * (rate.limit : Binary64) =
            (((now - seen) * rate.limit : Nat) : Binary64) := by
          rw [natCast_sub (by omega) (by omega), natCast_mul (by omega) (by omega)]
        have lessIff : (((now - seen) * rate.limit : Nat) : Binary64) < (ahead : Binary64) ↔
            (now - seen) * rate.limit < ahead := natCast_lt_of_le (by omega)
        simp only [drained, lessIff]
        congr 1
        split
        next less => exact natCast_sub (by omega) less.le
        next most =>
          rw [Nat.sub_eq_zero_of_le (Nat.not_lt.mp most)]
          rfl

/-- The locals of a call, as whole numbers. -/
def wholeFigures (rate : Rate) (now base d cost : Nat) : Figures where
  unit := (rate.unit : Binary64)
  tolerance := (rate.tolerance : Binary64)
  base := (base : Binary64)
  d := (d : Binary64)
  lag := (Gcra.ceildiv (base - now) 1000 : Binary64)
  free := ((rate.tolerance - d : Nat) : Binary64)
  need := ((cost * rate.unit : Nat) : Binary64)
  after := if rate.tolerance - d < cost * rate.unit then none
    else some ((d + cost * rate.unit : Nat) : Binary64)

theorem figures_gives (near : Near quotient) {rate : Rate} {now base d cost : Nat}
    {stored : Option String} (clock : now ≤ safe) (limit : 1 ≤ rate.limit)
    (small : rate.limit ≤ safe) (bounded : rate.tolerance ≤ safe) (burst : 1 ≤ rate.burst)
    (per : 1 ≤ rate.per) (affordable : cost ≤ rate.burst)
    (h : level rate now stored = (base, d)) :
    (figures quotient stored (now : Binary64) (rate.per : Binary64) (rate.limit : Binary64)
      (rate.burst : Binary64) (cost : Binary64)).Gives Operands
        (wholeFigures rate now base d cost) := by
  have fits := level_fits h
  have baseLe : base ≤ safe := by
    have le : (level rate now stored).1 ≤ safe := level_le_safe clock
    rwa [h] at le
  have nowLe : now ≤ base := by
    have le : now ≤ (level rate now stored).1 := now_le_level
    rwa [h] at le
  have unitPos : 1 ≤ rate.unit := Nat.mul_pos per (by decide)
  have needLe : cost * rate.unit ≤ rate.tolerance := Nat.mul_le_mul_right _ affordable
  have unitLe : rate.unit ≤ rate.tolerance := Nat.le_mul_of_pos_left _ burst
  have burstLe : rate.burst ≤ rate.tolerance := Nat.le_mul_of_pos_right _ unitPos
  have perLe : rate.per ≤ rate.unit := Nat.le_mul_of_pos_right _ (by decide)
  unfold safe at baseLe bounded
  have unit : (rate.per : Binary64) * 1000 = (rate.unit : Binary64) :=
    natCast_mul (by omega) (n := 1000) (by decide)
  have tolerance : (rate.burst : Binary64) * (rate.unit : Binary64) =
      (rate.tolerance : Binary64) := natCast_mul (by omega) (by omega)
  have behind : (base : Binary64) - (now : Binary64) = ((base - now : Nat) : Binary64) :=
    natCast_sub (by omega) nowLe
  have free : (rate.tolerance : Binary64) - (d : Binary64) =
      ((rate.tolerance - d : Nat) : Binary64) := natCast_sub (by omega) fits
  have need : (cost : Binary64) * (rate.unit : Binary64) =
      ((cost * rate.unit : Nat) : Binary64) := natCast_mul (by omega) (by omega)
  have after : (d : Binary64) + ((cost * rate.unit : Nat) : Binary64) =
      ((d + cost * rate.unit : Nat) : Binary64) := natCast_add (by omega) (by omega)
  have lessIff : ((rate.tolerance - d : Nat) : Binary64) < ((cost * rate.unit : Nat) : Binary64) ↔
      rate.tolerance - d < cost * rate.unit := natCast_lt (by omega) (by omega)
  unfold figures
  rw [unit]
  dsimp only
  rw [tolerance]
  refine (state_gives near clock limit small bounded stored).bind ?_
  rw [levelOf_whole clock small bounded h]
  dsimp only
  rw [behind]
  refine (ceildiv_gives near (by omega) (b := 1000) (by decide) (by decide)).bind ?_
  rw [free, need, after]
  simp only [lessIff]
  exact gives_pure _

end Parts

end NxgtData.Gcra.Doubles
