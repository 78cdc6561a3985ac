import Mathlib.Algebra.Order.Ring.Nat
import NxgtData.Lib.CodeUnits
import NxgtData.Lib.Decimal

/-!
Numbers written with a fixed count of digits, in any base up to 16: the texts come in the order
of the numbers. Texts of one length are compared by what comes first.
-/
namespace NxgtData.FixedWidth
open CodeUnits Decimal

/-- A number's digits, with zeros before them up to a width. -/
def fixed (base width n : Nat) : List Char := List.leftpad width '0' (Nat.toDigits base n)

theorem toList_padStart (width n : Nat) : (padStart width n).toList = fixed 10 width n := by
  rw [padStart, String.toList_ofList, toList_toString, fixed]

theorem ofDigitChars_fixed (width n : Nat) : Nat.ofDigitChars 10 (fixed 10 width n) 0 = n := by
  rw [← toList_padStart]
  exact tonumber_padStart width n

theorem isDigit_fixed {width n : Nat} {c : Char} (mem : c ∈ fixed 10 width n) : c.isDigit := by
  rw [← toList_padStart] at mem
  exact isDigit_padStart mem

/-- What follows the parts of a text read so far. -/
theorem drop_part {cs a b : List Char} {n k : Nat} (h : cs.drop n = a ++ b) (len : a.length = k)
    (m : Nat) (sum : n + k = m) : cs.drop m = b := by
  rw [← sum, ← List.drop_drop, h, List.drop_left' len]

/-- What follows a part and its mark. -/
theorem drop_marked {cs a b : List Char} {c : Char} {n k : Nat} (h : cs.drop n = a ++ c :: b)
    (len : a.length = k) (m : Nat) (sum : n + (k + 1) = m) : cs.drop m = b := by
  refine drop_part (a := a ++ [c]) ?_ ?_ m sum
  · rw [h, List.append_assoc, List.singleton_append]
  · rw [List.length_append, len, List.length_singleton]

theorem take_part {cs a b : List Char} {n k : Nat} (h : cs.drop n = a ++ b) (len : a.length = k) :
    (cs.drop n).take k = a := by
  rw [h, List.take_left' len]

theorem getElem_part {cs b : List Char} {c : Char} {n : Nat} (h : cs.drop n = c :: b) :
    cs[n]? = some c := by
  have first : (cs.drop n)[0]? = some c := by
    rw [h]
    rfl
  rwa [List.getElem?_drop, Nat.add_zero] at first

theorem fixed_one {base n : Nat} (lt : n < base) : fixed base 1 n = [Nat.digitChar n] := by
  rw [fixed, Nat.toDigits_of_lt_base lt]
  rfl

theorem leftpad_snoc (width : Nat) (c : Char) (cs : List Char) :
    List.leftpad (width + 1) '0' (cs ++ [c]) = List.leftpad width '0' cs ++ [c] := by
  simp [List.leftpad, List.append_assoc]

theorem fixed_succ {base width : Nat} (n : Nat) (two : 1 < base) (pos : 0 < width) :
    fixed base (width + 1) n = fixed base width (n / base) ++ [Nat.digitChar (n % base)] := by
  unfold fixed
  rcases Nat.lt_or_ge n base with small | large
  · rw [Nat.toDigits_of_lt_base small, Nat.div_eq_of_lt small, Nat.mod_eq_of_lt small,
      Nat.toDigits_zero, ← List.nil_append [n.digitChar], leftpad_snoc]
    obtain ⟨k, rfl⟩ := Nat.exists_eq_succ_of_ne_zero pos.ne'
    simp [List.leftpad, List.replicate_succ']
  · rw [Nat.toDigits_of_base_le two large, leftpad_snoc]

theorem length_fixed {base width n : Nat} (two : 1 < base) (pos : 0 < width)
    (lt : n < base ^ width) : (fixed base width n).length = width := by
  have digits : (Nat.toDigits base n).length ≤ width :=
    (Nat.length_toDigits_le_iff two pos).mpr lt
  rw [fixed, List.leftpad, List.length_append, List.length_replicate]
  omega

/-- The units of the texts come in the order of their lists. -/
def Before (a b : List Char) : Prop := a.map Char.toNat < b.map Char.toNat

theorem Before.append {a a' : List Char} (h : Before a a') (same : a.length = a'.length)
    (b b' : List Char) : Before (a ++ b) (a' ++ b') := by
  unfold Before at *
  rw [List.map_append, List.map_append]
  have long : (a.map Char.toNat).length = (a'.map Char.toNat).length := by simpa using same
  generalize a.map Char.toNat = l at h long
  generalize a'.map Char.toNat = l' at h long
  induction l generalizing l' with
  | nil =>
      cases l' with
      | nil => exact absurd h (lt_irrefl _)
      | cons => cases long
  | cons x l ih =>
      cases l' with
      | nil => cases long
      | cons y l' =>
          rcases List.cons_lt_cons_iff.mp h with lt | ⟨rfl, lt⟩
          · exact List.cons_lt_cons_iff.mpr (.inl lt)
          · exact List.cons_lt_cons_iff.mpr (.inr ⟨rfl, ih l' lt (Nat.succ.inj long)⟩)

theorem Before.after {b b' : List Char} (h : Before b b') (a : List Char) :
    Before (a ++ b) (a ++ b') := by
  unfold Before at *
  rw [List.map_append, List.map_append]
  induction a with
  | nil => exact h
  | cons c a ih => exact List.cons_lt_cons_iff.mpr (.inr ⟨rfl, ih⟩)

theorem digitChar_lt {a b : Nat} (lt : a < b) (small : b < 16) :
    (Nat.digitChar a).toNat < (Nat.digitChar b).toNat := by
  have all : ∀ b < 16, ∀ a < b, (Nat.digitChar a).toNat < (Nat.digitChar b).toNat := by decide
  exact all b small a lt

/-- Numbers of one width are written in their order. -/
theorem fixed_before {base width n m : Nat} (two : 1 < base) (few : base ≤ 16) (pos : 0 < width)
    (lt : n < m) (fits : m < base ^ width) : Before (fixed base width n) (fixed base width m) := by
  induction width generalizing n m with
  | zero => cases pos
  | succ width ih =>
      rcases Nat.eq_zero_or_pos width with rfl | more
      · rw [Nat.pow_one] at fits
        rw [fixed_one (lt.trans fits), fixed_one fits]
        exact List.cons_lt_cons_iff.mpr (.inl (digitChar_lt lt (fits.trans_le few)))
      · have front : m / base < base ^ width :=
          Nat.div_lt_of_lt_mul (by rwa [Nat.pow_succ'] at fits)
        rw [fixed_succ n two more, fixed_succ m two more]
        rcases (Nat.div_le_div_right lt.le).lt_or_eq with less | same
        · refine (ih more less front).append ?_ _ _
          rw [length_fixed two more (less.trans front), length_fixed two more front]
        · rw [same]
          refine Before.after ?_ _
          have last : n % base < m % base := by
            have := Nat.div_add_mod n base
            have := Nat.div_add_mod m base
            rw [same] at *
            omega
          have small : m % base < 16 := (Nat.mod_lt m (by omega)).trans_le few
          exact List.cons_lt_cons_iff.mpr (.inl (digitChar_lt last small))

/-- What is written after them does not matter. -/
theorem fixed_before_append {base width n m : Nat} (two : 1 < base) (few : base ≤ 16)
    (pos : 0 < width) (lt : n < m) (fits : m < base ^ width) (a b : List Char) :
    Before (fixed base width n ++ a) (fixed base width m ++ b) := by
  refine (fixed_before two few pos lt fits).append ?_ a b
  rw [length_fixed two pos (lt.trans fits), length_fixed two pos fits]

/-- What digits say after a number, in some base. -/
def number (base : Nat) (n : Nat) (digits : List Nat) : Nat :=
  digits.foldl (fun n digit => n * base + digit) n

theorem number_lt_of_lt {base : Nat} {l l' : List Nat} (same : l.length = l'.length)
    (fits : ∀ x ∈ l, x < base) {n m : Nat} (lt : n < m) : number base n l < number base m l' := by
  induction l generalizing l' n m with
  | nil =>
      cases l' with
      | nil => exact lt
      | cons => cases same
  | cons x l ih =>
      cases l' with
      | nil => cases same
      | cons y l' =>
          refine ih (Nat.succ.inj same) (fun z mem => fits z (List.mem_cons_of_mem _ mem)) ?_
          calc n * base + x < n * base + base :=
                Nat.add_lt_add_left (fits x List.mem_cons_self) _
            _ = (n + 1) * base := (Nat.succ_mul n base).symm
            _ ≤ m * base := Nat.mul_le_mul_right base lt
            _ ≤ m * base + y := Nat.le_add_right _ _

/-- Of one length, the digits of a lesser number come before. -/
theorem number_lt {base : Nat} {l l' : List Nat} (same : l.length = l'.length)
    (fits : ∀ x ∈ l, x < base) (before : l < l') (n : Nat) : number base n l < number base n l' := by
  induction l generalizing l' n with
  | nil =>
      cases l' with
      | nil => exact absurd before (lt_irrefl _)
      | cons => cases same
  | cons x l ih =>
      cases l' with
      | nil => cases same
      | cons y l' =>
          have fits' : ∀ z ∈ l, z < base := fun z mem => fits z (List.mem_cons_of_mem _ mem)
          rcases List.cons_lt_cons_iff.mp before with lt | ⟨rfl, after⟩
          · exact number_lt_of_lt (Nat.succ.inj same) fits' (Nat.add_lt_add_left lt _)
          · exact ih (Nat.succ.inj same) fits' after _

end NxgtData.FixedWidth
