import Mathlib.Algebra.Order.Group.Int

/-!
A time zone's clock: a whole-second offset from UTC that changes at whole seconds, three days
apart or more. A clock time is first reached at the earliest instant that reads it or, where
the clock skips it, at the end of the gap.
-/
namespace NxgtData

/-- The offset of each second. -/
structure Offsets where
  offset : Int → Int

/-- What the clock reads at a second, as seconds of a UTC clock. -/
def Offsets.clock (z : Offsets) (s : Int) : Int := s + z.offset s

/-- A zone's offsets are within 15 hours, and its transitions apart. -/
structure Zone extends Offsets where
  bounded : ∀ s, -54000 ≤ offset s ∧ offset s ≤ 54000
  apart : ∀ s s', offset (s - 1) ≠ offset s → offset (s' - 1) ≠ offset s' → s < s' →
    s + 259200 ≤ s'

namespace Zone
variable {z : Zone} {x y r q : Int}

instance : Coe Zone Offsets := ⟨toOffsets⟩

/-- The same of a millisecond. -/
def clockMs (z : Zone) (ms : Int) : Int := ms + 1000 * z.offset (ms / 1000)

theorem clock_bounds (z : Zone) (s : Int) : s - 54000 ≤ z.clock s ∧ z.clock s ≤ s + 54000 := by
  have := z.bounded s
  unfold Offsets.clock
  omega

/-- The offset of a stretch without a transition. -/
theorem offset_eq {lo hi : Int} (still : ∀ s, lo < s → s ≤ hi → z.offset (s - 1) = z.offset s)
    (low : lo ≤ r) (high : r ≤ hi) : z.offset r = z.offset lo := by
  induction r, low using Int.leInduction with
  | base => rfl
  | succ r low ih =>
      have step := still (r + 1) (by omega) high
      rw [add_sub_cancel_right] at step
      exact step.symm.trans (ih (by omega))

/-- Within a day of a second the offset changes once at most. -/
theorem window (z : Zone) (x : Int) : ∃ t, ∀ s, x - 86400 ≤ s → s ≤ x + 86400 →
    z.offset s = if s < t then z.offset (x - 86400) else z.offset (x + 86400) := by
  by_cases moves : ∃ t, x - 86400 < t ∧ t ≤ x + 86400 ∧ z.offset (t - 1) ≠ z.offset t
  · obtain ⟨t, low, high, transition⟩ := moves
    refine ⟨t, fun s begun ended => ?_⟩
    split
    next before =>
      refine @offset_eq _ _ _ (t - 1) (fun q after le => ?_) begun (by omega)
      by_contra other
      have := z.apart q t other transition (by omega)
      omega
    next after =>
      have still : ∀ q, t < q → q ≤ x + 86400 → z.offset (q - 1) = z.offset q := by
        intro q after le
        by_contra other
        have := z.apart t q transition other after
        omega
      rw [offset_eq still (by omega) ended, offset_eq still high le_rfl]
  · refine ⟨x + 86401, fun s begun ended => ?_⟩
    rw [if_pos (by omega)]
    refine @offset_eq _ _ _ (x + 86400) (fun q after le => ?_) begun ended
    by_contra other
    exact moves ⟨q, after, le, other⟩

/-! The second that first reaches a clock time. -/

structure Reached (z : Zone) (x r : Int) : Prop where
  reads : x ≤ z.clock r
  earliest : ∀ q, q < r → z.clock q < x

namespace Reached

theorem le_of_clock (reached : Reached z x r) (le : x ≤ z.clock q) : r ≤ q := by
  by_contra before
  have := reached.earliest q (by omega)
  omega

/-- A later time is reached no earlier. -/
theorem mono (first : Reached z x r) (second : Reached z y q) (le : x ≤ y) : r ≤ q :=
  first.le_of_clock (le.trans second.reads)

theorem unique (first : Reached z x r) (second : Reached z x q) : r = q :=
  le_antisymm (first.mono second le_rfl) (second.mono first le_rfl)

theorem bounds (reached : Reached z x r) : x - 54000 ≤ r ∧ r ≤ x + 54000 := by
  have := z.clock_bounds r
  have := z.clock_bounds (x + 54000)
  have := reached.reads
  have := reached.le_of_clock (q := x + 54000) (by omega)
  omega

end Reached

/-- A second of the day around a time is the first to reach it when it does, and none of that
day before it does: further off no offset leads there. -/
theorem reached_of_window (reads : x ≤ z.clock r)
    (earliest : ∀ q, x - 86400 ≤ q → q < r → z.clock q < x) : Reached z x r where
  reads := reads
  earliest := fun q before => by
    have := z.clock_bounds q
    by_cases far : q < x - 86400
    · omega
    · exact earliest q (by omega) before

section Window
variable {t b a : Int}

theorem reached_before (window : ∀ s, x - 86400 ≤ s → s ≤ x + 86400 →
      z.offset s = if s < t then b else a)
    (low : -54000 ≤ b) (high : b ≤ 54000) (before : x - b < t) : Reached z x (x - b) := by
  refine reached_of_window ?_ fun q begun lt => ?_
  · unfold Offsets.clock
    rw [window _ (by omega) (by omega), if_pos before]
    omega
  · unfold Offsets.clock
    rw [window q begun (by omega), if_pos (by omega)]
    omega

theorem reached_after (window : ∀ s, x - 86400 ≤ s → s ≤ x + 86400 →
      z.offset s = if s < t then b else a)
    (low : -54000 ≤ a) (high : a ≤ 54000) (past : t ≤ x - b) (after : t ≤ x - a) :
    Reached z x (x - a) := by
  refine reached_of_window ?_ fun q begun lt => ?_
  · unfold Offsets.clock
    rw [window _ (by omega) (by omega), if_neg (by omega)]
    omega
  · unfold Offsets.clock
    rw [window q begun (by omega)]
    split <;> omega

/-- A time in a gap is reached at the transition. -/
theorem reached_gap (window : ∀ s, x - 86400 ≤ s → s ≤ x + 86400 →
      z.offset s = if s < t then b else a)
    (bounds : -54000 ≤ a ∧ b ≤ 54000 ∧ -54000 ≤ b ∧ a ≤ 54000) (past : t ≤ x - b)
    (gap : x - a < t) : Reached z x t := by
  refine reached_of_window ?_ fun q begun lt => ?_
  · unfold Offsets.clock
    rw [window _ (by omega) (by omega), if_neg (by omega)]
    omega
  · unfold Offsets.clock
    rw [window q begun (by omega), if_pos lt]
    omega

end Window

theorem exists_reached (z : Zone) (x : Int) : ∃ r, Reached z x r := by
  obtain ⟨t, window⟩ := z.window x
  have before := z.bounded (x - 86400)
  have after := z.bounded (x + 86400)
  by_cases early : x - z.offset (x - 86400) < t
  · exact ⟨_, reached_before window before.1 before.2 early⟩
  · by_cases late : t ≤ x - z.offset (x + 86400)
    · exact ⟨_, reached_after window after.1 after.2 (by omega) late⟩
    · exact ⟨t, reached_gap window (by omega) (by omega) (by omega)⟩

/-! The instant of a clock time, in milliseconds. -/

/-- The earliest instant that reads a time or, when it falls in a forward gap, the
transition. -/
inductive First (z : Zone) (w u : Int) : Prop
  | read (reads : z.clockMs u = w) (earliest : ∀ v, z.clockMs v = w → u ≤ v)
  | gap {s : Int} (transition : u = 1000 * s) (before : 1000 * (s + z.offset (s - 1)) ≤ w)
      (after : w < 1000 * z.clock s)

/-- A clock that reads a whole second does so on the second. -/
theorem clockMs_eq {u : Int} : z.clockMs u = 1000 * x ↔ ∃ s, u = 1000 * s ∧ z.clock s = x := by
  unfold clockMs Offsets.clock
  constructor
  · intro reads
    exact ⟨u / 1000, by omega, by omega⟩
  · rintro ⟨s, rfl, reads⟩
    rw [Int.mul_ediv_cancel_left s (by decide)]
    omega

theorem first_of_reached (reached : Reached z x r) : First z (1000 * x) (1000 * r) := by
  have reads := reached.reads
  by_cases exact_ : z.clock r = x
  · refine .read (clockMs_eq.mpr ⟨r, rfl, exact_⟩) fun v same => ?_
    obtain ⟨s, rfl, at_⟩ := clockMs_eq.mp same
    have := reached.le_of_clock (q := s) at_.ge
    omega
  · have before := reached.earliest (r - 1) (by omega)
    unfold Offsets.clock at before
    exact .gap rfl (by omega) (by omega)

/-- After a gap the times that it skipped are not read again: the next transition is days off. -/
theorem reached_of_gap {s : Int} (before : s + z.offset (s - 1) ≤ x) (after : x < z.clock s) :
    Reached z x s := by
  obtain ⟨t, window⟩ := z.window x
  have low := z.bounded (s - 1)
  have high := z.bounded s
  unfold Offsets.clock at after
  have here := window s (by omega) (by omega)
  have back := window (s - 1) (by omega) (by omega)
  have same : s = t := by
    by_contra other
    have same : (s < t) = (s - 1 < t) := propext ⟨fun _ => by omega, fun _ => by omega⟩
    simp only [same] at here
    omega
  subst same
  rw [if_neg (by omega)] at here
  rw [if_pos (by omega)] at back
  exact reached_gap window (by omega) (by omega) (by omega)

theorem first_iff {u : Int} : First z (1000 * x) u ↔ ∃ r, u = 1000 * r ∧ Reached z x r := by
  constructor
  · intro first
    obtain ⟨r, reached⟩ := z.exists_reached x
    cases first with
    | gap transition before after =>
        exact ⟨_, transition, reached_of_gap (by omega) (by omega)⟩
    | read reads earliest =>
        obtain ⟨s, rfl, at_⟩ := clockMs_eq.mp reads
        have le := reached.le_of_clock (q := s) at_.ge
        cases first_of_reached reached with
        | read reads' =>
            have := earliest _ reads'
            obtain rfl : s = r := by omega
            exact ⟨s, rfl, reached⟩
        | @gap p transition before after =>
            -- the reading would come after the gap that skipped it
            exfalso
            obtain rfl : p = r := by omega
            obtain ⟨t, window⟩ := z.window x
            have gap := reached_of_gap (z := z) (x := x) (s := p) (by omega) (by omega)
            have near := z.bounded s
            have nearP := z.bounded p
            have nearQ := z.bounded (p - 1)
            unfold Offsets.clock at at_ after
            have here := window p (by omega) (by omega)
            have back := window (p - 1) (by omega) (by omega)
            have there := window s (by omega) (by omega)
            split at here <;> split at back <;> split at there <;> omega
  · rintro ⟨r, rfl, reached⟩
    exact first_of_reached reached

/-- A clock time has one first instant. -/
theorem existsUnique_first (z : Zone) (x : Int) : ∃! u, First z (1000 * x) u := by
  obtain ⟨r, reached⟩ := z.exists_reached x
  refine ⟨1000 * r, first_of_reached reached, fun u first => ?_⟩
  obtain ⟨q, rfl, other⟩ := first_iff.mp first
  rw [other.unique reached]

end Zone

end NxgtData
