import Mathlib.Data.List.Basic
import Mathlib.Tactic.NormNum

/-!
Decimal texts. `whole` is the pattern `^%d+$` and `tonumber` reads a text that
matches it; printing a number and reading it back is the identity, and the
number of digits is the logarithm.
-/
namespace NxgtData.Decimal

/-- `string.match(v, '^%d+$')`. -/
def whole (v : String) : Bool := !v.toList.isEmpty && v.toList.all Char.isDigit

/-- `tonumber` on a text of digits. -/
def tonumber (v : String) : Nat := Nat.ofDigitChars 10 v.toList 0

theorem toList_toString (n : Nat) : (toString n).toList = Nat.toDigits 10 n := by
  rw [Nat.toString_eq_ofList_toDigits, String.toList_ofList]

theorem whole_toString (n : Nat) : whole (toString n) = true := by
  simp only [whole, toList_toString, Bool.and_eq_true, Bool.not_eq_eq_eq_not, Bool.not_true,
    List.isEmpty_eq_false_iff, List.all_eq_true]
  exact ⟨Nat.toDigits_ne_nil, fun c hc =>
    Nat.isDigit_of_mem_toDigits (by decide) (by decide) hc⟩

theorem tonumber_toString (n : Nat) : tonumber (toString n) = n := by
  rw [tonumber, toList_toString, Nat.ofDigitChars_ten_toDigits]

/-! `simp` writes `toString n` as `n.repr`. -/

@[simp] theorem whole_repr (n : Nat) : whole n.repr = true := whole_toString n

@[simp] theorem tonumber_repr (n : Nat) : tonumber n.repr = n := tonumber_toString n

theorem toString_injective {n k : Nat} (h : toString n = toString k) : n = k := by
  rw [← tonumber_toString n, h, tonumber_toString]

theorem utf8ByteSize_of_digits (l : List Char) (h : ∀ c ∈ l, c.isDigit) :
    (String.ofList l).utf8ByteSize = l.length := by
  induction l with
  | nil => rfl
  | cons c l ih =>
      have digit := h c List.mem_cons_self
      have tail := ih fun d hd => h d (List.mem_cons_of_mem _ hd)
      have one : c.utf8Size = 1 := by
        simp only [Char.isDigit, Bool.and_eq_true, decide_eq_true_eq] at digit
        apply Char.utf8Size_eq_one_iff.mpr
        exact UInt32.le_trans digit.2 (by decide)
      rw [String.ofList_cons, String.utf8ByteSize_append, tail, List.length_cons]
      simp [one, Nat.add_comm]

/-- A digit is one byte, so the length Lua counts is the number of digits. -/
theorem utf8ByteSize_toString_le_iff {n k : Nat} (hk : 0 < k) :
    (toString n).utf8ByteSize ≤ k ↔ n < 10 ^ k := by
  have digits := utf8ByteSize_of_digits (Nat.toDigits 10 n) fun c hc =>
    Nat.isDigit_of_mem_toDigits (by decide) (by decide) hc
  rw [Nat.toString_eq_ofList_toDigits, digits]
  exact Nat.length_toDigits_le_iff (by decide) hk

/-- `String(n).padStart(width, '0')`. -/
def padStart (width n : Nat) : String := String.ofList (List.leftpad width '0' (toString n).toList)

theorem tonumber_padStart (width n : Nat) : tonumber (padStart width n) = n := by
  unfold tonumber padStart List.leftpad
  rw [String.toList_ofList, Nat.ofDigitChars_append, Nat.ofDigitChars_replicate_zero,
    Nat.mul_zero, toList_toString, Nat.ofDigitChars_ten_toDigits]

theorem isDigit_toString {n : Nat} {c : Char} (mem : c ∈ (toString n).toList) : c.isDigit := by
  rw [toList_toString] at mem
  exact Nat.isDigit_of_mem_toDigits (by decide) (by decide) mem

theorem isDigit_padStart {width n : Nat} {c : Char} (mem : c ∈ (padStart width n).toList) :
    c.isDigit := by
  unfold padStart List.leftpad at mem
  rw [String.toList_ofList] at mem
  rcases List.mem_append.mp mem with zero | digit
  · rw [List.eq_of_mem_replicate zero]
    decide
  · exact isDigit_toString digit

/-- Texts of digits before a mark that is none are read back. -/
theorem digits_inj {mark : Char} {a a' b b' : List Char} (no : mark.isDigit = false)
    (digits : ∀ c ∈ a, c.isDigit) (digits' : ∀ c ∈ a', c.isDigit)
    (same : a ++ mark :: b = a' ++ mark :: b') : a = a' ∧ b = b' := by
  induction a generalizing a' with
  | nil =>
      cases a' with
      | nil => exact ⟨rfl, (List.cons.inj same).2⟩
      | cons c a' =>
          have digit := digits' c List.mem_cons_self
          rw [← (List.cons.inj same).1, no] at digit
          cases digit
  | cons c a ih =>
      cases a' with
      | nil =>
          have digit := digits c List.mem_cons_self
          rw [(List.cons.inj same).1, no] at digit
          cases digit
      | cons c' a' =>
          obtain ⟨head, tail⟩ := List.cons.inj same
          obtain ⟨front, back⟩ := ih (fun d mem => digits d (List.mem_cons_of_mem _ mem))
            (fun d mem => digits' d (List.mem_cons_of_mem _ mem)) tail
          exact ⟨by rw [head, front], back⟩

end NxgtData.Decimal
