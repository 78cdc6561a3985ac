import Mathlib.Algebra.GroupWithZero.Nat
import Mathlib.Data.List.Basic

/-!
A leaky bucket by its theoretical arrival time. A spend at a time raises the
arrival time by its cost, from the time itself when the bucket has drained; it
conforms while the arrival time stays within the tolerance of the time. Whatever
the costs, what conforms between two times is at most the tolerance and the time
between them.
-/
namespace NxgtData.Bucket

/-- The arrival time after a spend of `cost` at `time`. -/
def arrive (tat time cost : Nat) : Nat := max tat time + cost

/-- Spends `(time, cost)` that each conform, at times that never go back. -/
inductive Conforms (tolerance : Nat) : Nat → Nat → List (Nat × Nat) → Prop where
  | nil (now tat : Nat) : Conforms tolerance now tat []
  | cons {now tat time cost rest} (later : now ≤ time)
      (within : arrive tat time cost ≤ time + tolerance)
      (conforms : Conforms tolerance time (arrive tat time cost) rest) :
      Conforms tolerance now tat ((time, cost) :: rest)

/-- What is spent from `s` to `e`. -/
def spent (s e : Nat) (spends : List (Nat × Nat)) : Nat :=
  ((spends.filter fun x => s ≤ x.1 ∧ x.1 ≤ e).map Prod.snd).sum

section Spent
variable {tolerance now tat time cost s e : Nat} {spends : List (Nat × Nat)}

theorem spent_cons (time cost : Nat) (spends : List (Nat × Nat)) :
    spent s e ((time, cost) :: spends) =
      (if s ≤ time ∧ time ≤ e then cost else 0) + spent s e spends := by
  simp only [spent, List.filter_cons, decide_eq_true_eq]
  split
  next => rw [List.map_cons, List.sum_cons]
  next => rw [Nat.zero_add]

theorem spent_nil : spent s e [] = 0 := rfl

/-- Times and costs in other units. -/
theorem spent_scale {a : Nat} (h : 0 < a) (b : Nat) :
    spent (s * a) (e * a) (spends.map fun x => (x.1 * a, x.2 * b)) = spent s e spends * b := by
  induction spends with
  | nil => rw [List.map_nil, spent_nil, spent_nil, Nat.zero_mul]
  | cons x rest ih =>
      rw [List.map_cons, spent_cons, spent_cons, ih, Nat.add_mul]
      simp only [Nat.mul_le_mul_right_iff h]
      split
      next => rfl
      next => rw [Nat.zero_mul]

/-- Nothing is spent in a window that is over. -/
theorem Conforms.spent_eq_zero (h : Conforms tolerance now tat spends) (past : e < now) :
    spent s e spends = 0 := by
  induction h with
  | nil => rfl
  | @cons now tat time cost rest later within conforms ih =>
      rw [spent_cons, if_neg (by omega), ih (by omega)]

/-- What is spent in a window lifts the arrival time, which stays within the
tolerance of the window's end. -/
theorem Conforms.spent_add_le (h : Conforms tolerance now tat spends) :
    spent s e spends + max tat s ≤ max (max tat s) (e + tolerance) := by
  induction h with
  | nil =>
      change 0 + _ ≤ _
      omega
  | @cons now tat time cost rest later within conforms ih =>
      rw [spent_cons]
      unfold arrive at within ih
      by_cases past : e < time
      · have none := conforms.spent_eq_zero (s := s) past
        rw [none, if_neg (by omega)]
        omega
      · split
        next inside => omega
        next before => omega

/-- Between two times, no more than the tolerance and the time between them. -/
theorem Conforms.spent_le (h : Conforms tolerance now tat spends) (le : s ≤ e) :
    spent s e spends ≤ tolerance + (e - s) := by
  have lifted := h.spent_add_le (s := s) (e := e)
  omega

end Spent
end NxgtData.Bucket
