import NxgtData.Schedule.Least

/-!
`nextAfter` answers within its days, in any zone whose offsets are whole seconds with a bound,
wherever its transitions are. `Date.UTC` may read a clock's year as another one, of the 1900s or
of this era: the walk then starts at a later day, and still meets one that matches.
-/
namespace NxgtData.Schedule
open Calendar Utf16

variable {cron : Cron} {zone : Offsets} {t B : Int}

/-- The last day, and one that no day read as another year comes to. -/
def lastDay : Int := 100000000

def mirrorDay : Int := 98600000

/-- A zone's offsets with a bound of half a year, at most. -/
structure Bounded (zone : Offsets) (B : Int) : Prop where
  bounded : ∀ s, -B ≤ zone.offset s ∧ zone.offset s ≤ B
  small : B ≤ 15768000

theorem Bounded.clock (h : Bounded zone B) (s : Int) :
    s - B ≤ zone.clock s ∧ zone.clock s ≤ s + B := by
  have := h.bounded s
  unfold Offsets.clock
  omega

theorem Bounded.nonneg (h : Bounded zone B) : 0 ≤ B := by
  have := h.bounded 0
  omega

/-! The day that `Date.UTC` makes of a clock's date. -/

theorem dayNumber_ge {y y' : Int} {n : Int} (is : yearOf n = y) (later : y < y') {m : Nat}
    {d : Int} (pos : 1 ≤ d) : n < dayNumber y' m d := by
  have ends := (yearOf_spec n).2
  have mono := dayFromYear_mono (show yearOf n + 1 ≤ y' by omega)
  unfold dayNumber
  omega

theorem dayNumber_le {y : Int} {m : Nat} (le : m ≤ 12) {d : Int} (day : d ≤ 31) :
    dayNumber y m d < dayFromYear y + 400 := by
  have start := monthStart_le (isLeap y) (show 1 ≤ 1 by omega) (show 1 ≤ 13 by omega)
  have month : monthStart (isLeap y) m ≤ 366 := by
    cases m with
    | zero => cases isLeap y <;> decide
    | succ m =>
        have := monthStart_le (isLeap y) (show 1 ≤ m + 1 by omega) (show m + 1 ≤ 13 by omega)
        have last : monthStart (isLeap y) 13 ≤ 366 := by cases isLeap y <;> decide
        omega
  unfold dayNumber
  omega

/-- The year that is shown of a clock's, and the year that `Date.UTC` reads it as. -/
theorem year_read {year shown read : Int} (shows : shown = if 0 < year then year else 1 - year)
    (reads : read = if 0 ≤ shown ∧ shown ≤ 99 then 1900 + shown else shown) :
    100 ≤ read ∧ (read = year ∨ year < read ∧ year ≤ 99 ∧ (read ≤ 1999 ∨ read = 1 - year)) := by
  split at shows <;> split at reads <;> omega

/-- The day that a clock's fields are read as: its own, or a later one of another year. -/
theorem exists_start {s : Int} (low : -86400 * (lastDay + 183) ≤ s) :
    ∃ n, (∀ (i hour minute second : Nat),
        dateUTC (wallAt s).year (wallAt s).month ((wallAt s).day + i) hour minute second =
          timeClip ((n + i) * dayMs + 1000 * (3600 * hour + 60 * minute + second))) ∧
      firstDay ≤ n ∧
        (n = s / 86400 ∨ s / 86400 < n ∧ s / 86400 < firstDay ∧ n ≤ mirrorDay) := by
  obtain ⟨day, within⟩ := date_day (s / 86400)
  obtain ⟨pos, le⟩ := date_month (s / 86400)
  have days : (date (s / 86400)).day ≤ 31 := by
    have all : ∀ (leap : Bool) (m : Nat), 1 ≤ m → m ≤ 12 → monthDays leap m ≤ 31 := by
      intro leap m pos le
      interval_cases m <;> cases leap <;> decide
    exact within.trans (all _ _ pos le)
  have spec := yearOf_spec (s / 86400)
  have begins := dayFromYear_bounds (yearOf (s / 86400) + 1)
  have moved (y : Int) (i : Nat) : dayNumber y (date (s / 86400)).month
      ((date (s / 86400)).day + i) =
        dayNumber y (date (s / 86400)).month (date (s / 86400)).day + i := by
    unfold dayNumber
    omega
  let read := if 0 ≤ (wallAt s).year ∧ (wallAt s).year ≤ 99 then 1900 + (wallAt s).year
    else (wallAt s).year
  obtain ⟨late, either⟩ := @year_read (yearOf (s / 86400)) (wallAt s).year read rfl rfl
  refine ⟨dayNumber read (date (s / 86400)).month (date (s / 86400)).day, fun i h m sec => ?_, ?_,
    ?_⟩
  · rw [← moved read i]
    rfl
  · have mono := dayFromYear_mono late
    have first : dayFromYear 100 = firstDay := by decide
    unfold dayNumber
    omega
  · rcases either with same | ⟨later, early, bound⟩
    · rw [same]
      exact .inl (dayNumber_date (s / 86400))
    · right
      have below := @dayNumber_le read _ le (date (s / 86400)).day (by omega)
      refine ⟨dayNumber_ge rfl later (by omega), ?_, ?_⟩
      · have mono := dayFromYear_mono (show yearOf (s / 86400) + 1 ≤ 100 by omega)
        have first : dayFromYear 100 = firstDay := by decide
        omega
      · have ends := dayFromYear_bounds read
        unfold lastDay at low
        unfold mirrorDay
        omega

theorem timeClip_some {ms : Int} (low : -maxTime ≤ ms) (high : ms ≤ maxTime) :
    timeClip ms = some ms := if_pos ⟨low, high⟩

/-- A second of the clock is read as the same second of that day. -/
theorem asUtc_start {s n : Int} (reads : ∀ (i hour minute second : Nat),
      dateUTC (wallAt s).year (wallAt s).month ((wallAt s).day + i) hour minute second =
        timeClip ((n + i) * dayMs + 1000 * (3600 * hour + 60 * minute + second))) :
    asUtc (wallAt s) = timeClip (1000 * (86400 * n + s % 86400)) := by
  have is := reads 0 (wallAt s).hour (wallAt s).minute (wallAt s).second
  rw [Nat.cast_zero, add_zero, add_zero] at is
  refine is.trans (congrArg timeClip ?_)
  change n * dayMs + 1000 * (3600 * ((s % 86400).toNat / 3600 : Nat) +
    60 * ((s % 86400).toNat / 60 % 60 : Nat) + ((s % 86400).toNat % 60 : Nat)) = _
  unfold dayMs
  omega

/-- The fields of a second are read as that second, or as a later one. -/
theorem exists_asUtc {s : Int} (low : -86400 * (lastDay + 183) ≤ s) (high : 1000 * s ≤ maxTime) :
    ∃ v, asUtc (wallAt s) = some (1000 * v) ∧ 86400 * firstDay ≤ v ∧
      (v = s ∨ s < v ∧ s < 86400 * firstDay ∧ v < 86400 * (mirrorDay + 1)) := by
  obtain ⟨n, reads, first, day⟩ := exists_start low
  have bound : 1000 * (86400 * n + s % 86400) ≤ maxTime := by
    unfold mirrorDay maxTime at *
    omega
  refine ⟨86400 * n + s % 86400, ?_, by omega, by omega⟩
  rw [asUtc_start reads]
  exact timeClip_some (by unfold firstDay maxTime at *; omega) bound

/-! An offset, as it is read. -/

theorem wallOf_some {ms : Int} (low : -maxTime ≤ ms) (high : ms ≤ maxTime) :
    wallOf (some ms) zone = .ok (wallAt (zone.clock (ms / 1000))) := by
  unfold wallOf timeClip
  rw [Option.bind_some, if_pos ⟨low, high⟩]

theorem exists_offsetAt (h : Bounded zone B) {s : Int} (low : -maxTime ≤ 1000 * s)
    (high : 1000 * (s + B) ≤ maxTime) :
    ∃ o, offsetAt (some (1000 * s)) zone = .ok (some (1000 * o)) ∧
      86400 * firstDay ≤ s + o ∧ (s + o < 86400 * (mirrorDay + 1) ∨ o = zone.offset s) ∧
      (86400 * firstDay ≤ s - B → o = zone.offset s) ∧ -B ≤ o := by
  have clock := h.clock s
  have nonneg := h.nonneg
  have own := h.bounded s
  obtain ⟨v, is, late, either⟩ := @exists_asUtc (zone.clock s)
    (by have := h.small; unfold lastDay maxTime at *; omega) (by omega)
  refine ⟨v - s, ?_, by omega, ?_, ?_, by omega⟩
  · unfold offsetAt
    rw [wallOf_some low (by omega), Int.mul_ediv_cancel_left s (by decide), ok_bind, is,
      Option.map_some, minus_some]
    refine congrArg (Except.ok ∘ some) ?_
    omega
  · unfold Offsets.clock at either
    omega
  · intro far
    unfold Offsets.clock at clock either
    omega

/-! The instants of a wall time. -/

/-- The bisection ends, between its ends. -/
theorem exists_bisect {p : Option Int} {fuel : Nat} {low high : Int}
    (reads : ∀ s, low ≤ s → s ≤ high → ∃ o, offsetAt (some (1000 * s)) zone = .ok o)
    (enough : high - low < fuel) (pos : 0 < fuel) :
    ∃ r, bisect p zone fuel (1000 * low) (1000 * high) = .ok (1000 * r) ∧
      (r = high ∨ low ≤ r) := by
  induction fuel generalizing low high with
  | zero => omega
  | succ fuel ih =>
      unfold bisect
      split
      next wide =>
        have mid : 1000 * low + (1000 * high - 1000 * low) / 2000 * 1000 =
            1000 * (low + (high - low) / 2) := by omega
        obtain ⟨o, is⟩ := reads (low + (high - low) / 2) (by omega) (by omega)
        dsimp only
        rw [mid, is, ok_bind]
        split
        · obtain ⟨r, found, between⟩ := @ih (low + (high - low) / 2) high
            (fun s begun => reads s (by omega)) (by omega) (by omega)
          exact ⟨r, found, by omega⟩
        · obtain ⟨r, found, between⟩ := @ih low (low + (high - low) / 2)
            (fun s begun ended => reads s begun (by omega)) (by omega) (by omega)
          exact ⟨r, found, by omega⟩
      next narrow => exact ⟨high, rfl, .inl rfl⟩

theorem exists_validGuesses {target : Option Int} {x : Int} (is : target = some (1000 * x))
    {offsets : List Int}
    (inRange : ∀ o ∈ offsets, -maxTime ≤ 1000 * (x - o) ∧ 1000 * (x - o) ≤ maxTime) :
    ∃ valid, validGuesses target zone (offsets.map fun o => some (1000 * o)) = .ok valid ∧
      ∀ ms ∈ valid, ∃ o ∈ offsets, ms = 1000 * (x - o) := by
  induction offsets with
  | nil => exact ⟨[], rfl, fun ms mem => absurd mem List.not_mem_nil⟩
  | cons o rest ih =>
      obtain ⟨valid, others, all⟩ := ih fun o mem => inRange o (List.mem_cons_of_mem _ mem)
      have guess : minus target (some (1000 * o)) = some (1000 * (x - o)) := by
        rw [is, minus_some, Int.mul_sub]
      obtain ⟨low, high⟩ := inRange o List.mem_cons_self
      have later : ∀ ms ∈ valid, ∃ o' ∈ o :: rest, ms = 1000 * (x - o') := fun ms mem =>
        let ⟨o', mem', own⟩ := all ms mem
        ⟨o', List.mem_cons_of_mem _ mem', own⟩
      rw [List.map_cons]
      unfold validGuesses
      dsimp only
      rw [guess, wallOf_some low high, ok_bind, others, ok_bind]
      dsimp only
      split
      · refine ⟨_, rfl, fun ms mem => ?_⟩
        cases mem with
        | head => exact ⟨o, List.mem_cons_self, rfl⟩
        | tail _ mem => exact later ms mem
      · exact ⟨valid, rfl, later⟩

theorem foldl_min_ge {a : Int} {rest : List Int} {first : Int} (le : a ≤ first)
    (all : ∀ ms ∈ rest, a ≤ ms) : a ≤ rest.foldl min first := by
  induction rest generalizing first with
  | nil => exact le
  | cons ms rest ih =>
      exact ih (le_min le (all ms List.mem_cons_self)) fun ms mem =>
        all ms (List.mem_cons_of_mem _ mem)

/-- The seconds that a wall time's search may be given. -/
structure Inside (B x : Int) : Prop where
  low : 86400 * firstDay ≤ x
  high : 1000 * (x + 86400 + 2 * B) ≤ maxTime

/-- It has an instant; one that is far from the first years is at most `B` before it. -/
theorem exists_instantsOf (h : Bounded zone B) {wall : Wall} {x : Int}
    (target : asUtc wall = some (1000 * x)) (inside : Inside B x) :
    ∃ u inGap, instantsOf wall zone = .ok (some u, inGap) ∧
      (86400 * firstDay ≤ x - 86400 - B → 1000 * (x - B) ≤ u) := by
  have low := inside.low
  have high := inside.high
  have small := h.small
  have nonneg := h.nonneg
  obtain ⟨b, isB, lateB, nearB, exactB, geB⟩ := @exists_offsetAt zone B h (x - 86400)
    (by unfold firstDay maxTime at *; omega) (by omega)
  obtain ⟨a, isA, lateA, nearA, exactA, geA⟩ := @exists_offsetAt zone B h (x + 86400)
    (by unfold firstDay maxTime at *; omega) (by omega)
  have boundB := h.bounded (x - 86400)
  have boundA := h.bounded (x + 86400)
  have guessB : -maxTime ≤ 1000 * (x - b) ∧ 1000 * (x - b) ≤ maxTime := by
    unfold firstDay mirrorDay maxTime at *
    omega
  have guessA : -maxTime ≤ 1000 * (x - a) ∧ 1000 * (x - a) ≤ maxTime := by
    unfold firstDay mirrorDay maxTime at *
    omega
  have before : offsetAt (minus (asUtc wall) (some dayMs)) zone = .ok (some (1000 * b)) := by
    rw [target, minus_some, ← isB, Int.mul_sub]
    rfl
  have after : offsetAt ((asUtc wall).map fun ms => ms + dayMs) zone = .ok (some (1000 * a)) := by
    rw [target, ← isA, Int.mul_add]
    rfl
  obtain ⟨valid, isValid, guesses⟩ := @exists_validGuesses zone _ _ target [b, a] (by
    intro o mem
    rcases List.mem_pair.mp mem with rfl | rfl
    · exact guessB
    · exact guessA)
  have late : 86400 * firstDay ≤ x - 86400 - B → ∀ o ∈ [b, a], o ≤ B := by
    intro far o mem
    rcases List.mem_pair.mp mem with rfl | rfl
    · rw [exactB (by omega)]
      exact boundB.2
    · rw [exactA (by omega)]
      exact boundA.2
  have ge (far : 86400 * firstDay ≤ x - 86400 - B) : ∀ ms ∈ valid, 1000 * (x - B) ≤ ms := by
    intro ms mem
    obtain ⟨o, own, rfl⟩ := guesses ms mem
    have := late far o own
    omega
  unfold instantsOf
  dsimp only
  rw [before, ok_bind, after, ok_bind]
  rw [List.map_cons, List.map_cons, List.map_nil] at isValid
  rw [isValid, ok_bind]
  cases valid with
  | cons first rest =>
      refine ⟨_, _, rfl, fun far => ?_⟩
      exact foldl_min_ge (ge far first List.mem_cons_self) fun ms mem =>
        ge far ms (List.mem_cons_of_mem _ mem)
  | nil =>
      obtain ⟨r, found, between⟩ := @exists_bisect zone (some (1000 * b))
        (((1000 * (x - b) - 1000 * (x - a)) / 1000).toNat + 1) (x - a) (x - b)
        (fun s begun ended => by
          obtain ⟨o, is, -⟩ := @exists_offsetAt zone B h s (by omega) (by omega)
          exact ⟨_, is⟩) (by omega) (Nat.succ_pos _)
      refine ⟨1000 * r, true, ?_, fun far => ?_⟩
      · dsimp only
        rw [target, minus_some, minus_some, ← Int.mul_sub, ← Int.mul_sub]
        unfold transitionBetween
        dsimp only
        rw [found]
        rfl
      · have := late far b (by simp)
        have := late far a (by simp)
        omega

/-! The walk. -/

theorem dateUTC_date {n : Int} (low : firstDay ≤ n) (high : n ≤ 99999998) {time : Nat × Nat}
    (mem : time ∈ timesOfDay) :
    dateUTC (date n).year (date n).month (date n).day time.1 time.2 0 =
      some (1000 * secondsAt n time) := by
  have bounds := @secondsAt_bounds n _ mem
  have whole : n * dayMs + 1000 * (3600 * (time.1 : Int) + 60 * time.2 + (0 : Nat)) =
      1000 * secondsAt n time := by
    unfold dayMs secondsAt
    omega
  have late : 100 ≤ (date n).year := yearOf_ge low
  rw [dateUTC_eq late, dayNumber_date, whole]
  unfold firstDay at low
  exact timeClip_some (by unfold maxTime; omega) (by unfold maxTime; omega)

/-- The days whose times have instants. -/
structure Walked (B n : Int) : Prop where
  low : firstDay ≤ n
  high : 1000 * (86400 * (n + 2) + 2 * B) ≤ maxTime

/-- A day's times are searched; a day far after `t` has an answer if a time matches. -/
theorem exists_searchTimes (h : Bounded zone B) {n v : Int} (walked : Walked B n)
    {times : List (Nat × Nat)} (own : ∀ time ∈ times, time ∈ timesOfDay) :
    ∃ u, searchTimes cron zone t (some v) (date n) times = .ok u ∧
      (v ≤ 1000 * (86400 * n) → 86400 * firstDay ≤ 86400 * n - 86400 - B →
        t < 1000 * (86400 * n - B) →
        (∃ time ∈ times, matchesTime cron time.1 time.2 = true) → u.isSome) := by
  have nonneg := h.nonneg
  induction times with
  | nil =>
      refine ⟨none, rfl, fun _ _ _ matched => ?_⟩
      obtain ⟨time, mem, -⟩ := matched
      exact absurd mem List.not_mem_nil
  | cons time times ih =>
      obtain ⟨u, rest, found⟩ := ih fun a mem => own a (List.mem_cons_of_mem _ mem)
      have mem := own time List.mem_cons_self
      have bounds := @secondsAt_bounds n _ mem
      have low := walked.low
      have high := walked.high
      have target := dateUTC_date low (by unfold maxTime at high; omega) mem
      unfold searchTimes
      dsimp only
      split
      next other =>
        rw [Bool.not_eq_true'] at other
        refine ⟨u, rest, fun begun far after matched => found begun far after ?_⟩
        obtain ⟨a, mem, own⟩ := matched
        cases mem with
        | head => rw [other] at own; cases own
        | tail _ mem => exact ⟨a, mem, own⟩
      next =>
        rw [target]
        split
        next early =>
          refine ⟨u, rest, fun begun => ?_⟩
          have before : 1000 * secondsAt n time < v := of_decide_eq_true early
          omega
        next =>
          obtain ⟨first, inGap, is, late⟩ := @exists_instantsOf zone B h
            ⟨(date n).year, (date n).month, (date n).day, time.1, time.2, 0⟩ _ target
            ⟨by omega, by omega⟩
          rw [is, ok_bind]
          dsimp only
          split
          next => exact ⟨_, rfl, fun _ _ _ _ => rfl⟩
          next notNext =>
            refine ⟨u, rest, fun _ far after => ?_⟩
            have next : t < first := by
              have := late (by omega)
              omega
            exact absurd (decide_eq_true next) notNext

/-- The walk answers, on the known day at the latest. -/
theorem exists_searchDays (h : Bounded zone B) {start : Wall} {n v : Int}
    (reads : ∀ i : Nat, dateUTC start.year start.month (start.day + i) 0 0 0 =
      timeClip ((n + i) * dayMs))
    (clock : asUtc start = some v) (day : v < 1000 * (86400 * (n + 1))) {fuel i k : Nat}
    (begun : i ≤ k) (enough : k < i + fuel) (first : firstDay ≤ n) (walked : Walked B (n + k))
    (matched : matchesDate cron (n + k) = true)
    (time : ∃ time ∈ timesOfDay, matchesTime cron time.1 time.2 = true)
    (later : 1 ≤ k) (far : 86400 * firstDay ≤ 86400 * (n + k) - 86400 - B)
    (after : t < 1000 * (86400 * (n + k) - B)) :
    ∃ u, searchDays cron zone t start fuel i = .ok u := by
  have nonneg := h.nonneg
  induction fuel generalizing i with
  | zero => omega
  | succ fuel ih =>
      have high := walked.high
      have here : Walked B (n + i) := ⟨by omega, by omega⟩
      have clips : timeClip ((n + i) * dayMs) = some ((n + i) * dayMs) := by
        unfold firstDay at first
        exact timeClip_some (by unfold maxTime dayMs; omega) (by unfold maxTime dayMs at *; omega)
      unfold searchDays
      rw [reads, clips]
      dsimp only
      rw [Int.mul_ediv_cancel (n + i) (show dayMs ≠ 0 by decide)]
      split
      next other =>
        rw [Bool.not_eq_true'] at other
        have ne : i ≠ k := by
          rintro rfl
          rw [matched] at other
          cases other
        exact ih (by omega) (by omega)
      next =>
        obtain ⟨u, is, found⟩ := @exists_searchTimes cron zone t B h _ v here timesOfDay
          (fun _ mem => mem)
        rw [clock, is, ok_bind]
        cases u with
        | some u => exact ⟨u, rfl⟩
        | none =>
            have ne : i ≠ k := by
              rintro rfl
              have := found (by omega) far after time
              cases this
            exact ih (by omega) (by omega)

/-- `nextAfter` answers at any instant that is not in the last 401 years of `Date`. -/
theorem nextAfter_returns {text : Utf16} (accepted : parseCron text = .ok cron)
    (h : Bounded zone B) (low : -maxTime ≤ t)
    (high : t + 1000 * (86400 * 146464 + 3 * B) ≤ maxTime) :
    ∃ u, nextAfter cron zone t = .ok u := by
  have nonneg := h.nonneg
  have small := h.small
  have bounds := h.clock (t / 1000)
  obtain ⟨n, reads, first, own⟩ := @exists_start (zone.clock (t / 1000))
    (by unfold lastDay maxTime at *; omega)
  obtain ⟨k, lt, matched⟩ := exists_day accepted (n + 366)
  have begins : zone.clock (t / 1000) / 86400 ≤ n := by omega
  have clock : asUtc (wallAt (zone.clock (t / 1000))) =
      some (1000 * (86400 * n + zone.clock (t / 1000) % 86400)) := by
    rw [asUtc_start reads]
    exact timeClip_some (by unfold firstDay maxTime at *; omega)
      (by unfold mirrorDay maxTime at *; omega)
  unfold nextAfter
  rw [wallOf_some low (by omega), ok_bind]
  refine @exists_searchDays cron zone t B h _ n _ (fun i => ?_) clock (by omega) maxDays 0
    (366 + k) (Nat.zero_le _) (by unfold maxDays cycleDays; omega) first ?_ ?_
    (exists_time accepted) (by omega) ?_ ?_
  · rw [reads i 0 0 0]
    congr 1
    simp
  · refine ⟨by omega, ?_⟩
    unfold mirrorDay maxTime at *
    omega
  · rw [show n + ((366 + k : Nat) : Int) = n + 366 + k by push_cast; omega]
    exact matched
  · push_cast
    omega
  · push_cast
    omega

/-- A clock that jumps to and fro every two hours. -/
def restless : Offsets where
  offset := fun s => if s / 7200 % 2 = 0 then 0 else 3600

theorem restless_bounded : Bounded restless 3600 where
  bounded := fun s => by
    unfold restless
    dsimp only
    split <;> omega
  small := by decide

/-- Half past two of 1970-01-01 falls in a gap there; the answer is an instant near it. -/
theorem nextAfter_returns_restless :
    nextAfter halfPastTwo restless 0 = .ok 5400000 ∧ ∃ u, nextAfter halfPastTwo restless 0 = .ok u :=
  ⟨by decide +kernel, nextAfter_returns parseCron_halfPastTwo restless_bounded (by decide)
    (by decide)⟩

/-- At the end of `Date` there is no answer. -/
theorem nextAfter_lastInstant : ¬ ∀ (text : Utf16) (cron : Cron) (zone : Offsets) (t : Int),
    parseCron text = .ok cron → (∃ B, Bounded zone B) → -maxTime ≤ t → t ≤ maxTime →
      ∃ u, nextAfter cron zone t = .ok u := by
  intro every
  obtain ⟨u, is⟩ := every _ _ utc maxTime parseCron_halfPastTwo
    ⟨0, fun _ => ⟨le_rfl, le_rfl⟩, by decide⟩ (by decide) le_rfl
  have run : nextAfter halfPastTwo utc maxTime = .error .rangeError := by
    decide +kernel
  cases is.symm.trans run

end NxgtData.Schedule
