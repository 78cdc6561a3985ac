import Mathlib.Order.Bounds.Basic
import NxgtData.Schedule.Instants
import NxgtData.Schedule.Sunday

/-!
`nextAfter` answers the least occurrence after an instant, of all the calendar minutes that a
cron matches, and calls from each answer on run each minute's first instant once. The minutes
before the clock's own are skipped: their first instants are over.
-/
namespace NxgtData.Schedule
open Calendar Utf16

variable {cron : Cron} {zone : Zone} {t : Int}

/-- A minute of the calendar. -/
structure Minute where
  day : Int
  hour : Fin 24
  minute : Fin 60

/-- A day's hour and minute, in seconds of a UTC clock. -/
def secondsAt (n : Int) (time : Nat × Nat) : Int := 86400 * n + 3600 * time.1 + 60 * time.2

def Minute.seconds (m : Minute) : Int := secondsAt m.day (m.hour, m.minute)

def Minute.Matches (cron : Cron) (m : Minute) : Prop :=
  matchesDate cron m.day = true ∧ matchesTime cron m.hour m.minute = true

/-- The first instant of some minute that the cron matches. -/
def Occurrence (cron : Cron) (zone : Zone) (u : Int) : Prop :=
  ∃ m : Minute, m.Matches cron ∧ zone.First (1000 * m.seconds) u

/-- The answers of repeated calls. -/
def after (cron : Cron) (zone : Zone) : Nat → Int → Except Fault Int
  | 0, t => .ok t
  | k + 1, t => nextAfter cron zone t >>= after cron zone k

/-- 0100-01-04, and 400 years before the last day of `Date`: the searches that begin between
them stay where `Date.UTC` takes a year as it is. -/
def firstStart : Int := 86400000 * (firstDay + 3)

def lastStart : Int := 86400000 * 99853896

/-! The times of a day. -/

theorem mem_timesOfDay {time : Nat × Nat} : time ∈ timesOfDay ↔ time.1 < 24 ∧ time.2 < 60 := by
  obtain ⟨hour, minute⟩ := time
  simp [timesOfDay]

theorem timesOfDay_sorted (n : Int) :
    timesOfDay.Pairwise fun a b => secondsAt n a < secondsAt n b := by
  unfold timesOfDay secondsAt
  rw [List.pairwise_flatMap]
  constructor
  · intro hour _
    rw [List.pairwise_map]
    exact List.pairwise_lt_range.imp fun lt => by dsimp only; omega
  · refine List.pairwise_lt_range.imp fun {a b} lt x mem y mem' => ?_
    obtain ⟨i, low, rfl⟩ := List.mem_map.mp mem
    obtain ⟨j, -, rfl⟩ := List.mem_map.mp mem'
    have := List.mem_range.mp low
    dsimp only
    omega

theorem secondsAt_bounds {n : Int} {time : Nat × Nat} (mem : time ∈ timesOfDay) :
    86400 * n ≤ secondsAt n time ∧ secondsAt n time < 86400 * (n + 1) := by
  have := mem_timesOfDay.mp mem
  unfold secondsAt
  omega

/-! One day. -/

/-- A day that the search may come to. -/
structure Searchable (n : Int) : Prop where
  low : firstDay + 2 ≤ n
  high : n ≤ 99999997

theorem dateUTC_day {n : Int} (searchable : Searchable n) {time : Nat × Nat}
    (mem : time ∈ timesOfDay) :
    dateUTC (date n).year (date n).month (date n).day time.1 time.2 0 =
      some (1000 * secondsAt n time) := by
  have low := searchable.low
  have high := searchable.high
  have bounds := secondsAt_bounds (n := n) mem
  have whole : n * dayMs + 1000 * (3600 * (time.1 : Int) + 60 * time.2 + (0 : Nat)) =
      1000 * secondsAt n time := by
    unfold dayMs secondsAt
    omega
  have late : 100 ≤ (date n).year := yearOf_ge (by omega)
  rw [dateUTC_eq late, dayNumber_date, whole]
  unfold firstDay at low
  exact if_pos ⟨by unfold maxTime; omega, by unfold maxTime; omega⟩

theorem Searchable.inRange {n : Int} (searchable : Searchable n) {time : Nat × Nat}
    (mem : time ∈ timesOfDay) {s : Int} (begun : secondsAt n time - 86400 ≤ s)
    (ended : s ≤ secondsAt n time + 86400) : InRange s := by
  have low := searchable.low
  have high := searchable.high
  have bounds := secondsAt_bounds (n := n) mem
  exact ⟨by omega, by unfold maxTime; omega⟩

/-- The first instant of a clock time is not after `t`. -/
def Past (zone : Zone) (t x : Int) : Prop := ∃ r, zone.Reached x r ∧ 1000 * r ≤ t

theorem Past.of_le {x : Int} (le : x ≤ zone.clock (t / 1000)) : Past zone t x := by
  obtain ⟨r, reached⟩ := zone.exists_reached x
  have := reached.le_of_clock le
  exact ⟨r, reached, by omega⟩

theorem Past.of_reached {x r : Int} (reached : zone.Reached x r) (notAfter : ¬ t < 1000 * r) :
    Past zone t x := ⟨r, reached, by omega⟩

/-- What the loops over a day's times come to: the first of them whose instant is after `t`. -/
inductive DaySearch (cron : Cron) (zone : Zone) (t n : Int) (times : List (Nat × Nat)) :
    Option Int → Prop
  | none (past : ∀ a ∈ times, matchesTime cron a.1 a.2 = true → Past zone t (secondsAt n a)) :
      DaySearch cron zone t n times none
  | found {before rest : List (Nat × Nat)} {time : Nat × Nat} {r : Int}
      (split : times = before ++ time :: rest) (own : matchesTime cron time.1 time.2 = true)
      (past : ∀ a ∈ before, matchesTime cron a.1 a.2 = true → Past zone t (secondsAt n a))
      (reached : zone.Reached (secondsAt n time) r) (next : t < 1000 * r) :
      DaySearch cron zone t n times (some (1000 * r))

theorem DaySearch.skip {n : Int} {times : List (Nat × Nat)} {time : Nat × Nat} {u : Option Int}
    (search : DaySearch cron zone t n times u)
    (past : matchesTime cron time.1 time.2 = true → Past zone t (secondsAt n time)) :
    DaySearch cron zone t n (time :: times) u := by
  cases search with
  | none all => exact .none (List.forall_mem_cons.mpr ⟨past, all⟩)
  | @found before rest a r split own all reached next =>
      exact .found (congrArg (time :: ·) split) own (List.forall_mem_cons.mpr ⟨past, all⟩) reached
        next

theorem searchTimes_spec {n : Int} (searchable : Searchable n) {times : List (Nat × Nat)}
    (own : ∀ time ∈ times, time ∈ timesOfDay) :
    ∃ u, searchTimes cron zone t (some (1000 * zone.clock (t / 1000))) (date n) times = .ok u ∧
      DaySearch cron zone t n times u := by
  induction times with
  | nil => exact ⟨none, rfl, .none fun time mem => absurd mem List.not_mem_nil⟩
  | cons time times ih =>
      obtain ⟨u, rest, search⟩ := ih fun a mem => own a (List.mem_cons_of_mem _ mem)
      have mem := own time List.mem_cons_self
      have target := dateUTC_day searchable mem
      unfold searchTimes
      dsimp only
      split
      next other =>
        rw [Bool.not_eq_true'] at other
        exact ⟨u, rest, search.skip fun is => absurd (is.symm.trans other) nofun⟩
      next matched =>
        rw [target]
        split
        next early =>
          have le : secondsAt n time ≤ zone.clock (t / 1000) := by
            have lt : 1000 * secondsAt n time < 1000 * zone.clock (t / 1000) :=
              of_decide_eq_true early
            omega
          exact ⟨u, rest, search.skip fun _ => .of_le le⟩
        next =>
          obtain ⟨r, reached⟩ := zone.exists_reached (secondsAt n time)
          obtain ⟨inGap, is⟩ := @instantsOf_eq zone
            ⟨(date n).year, (date n).month, (date n).day, time.1, time.2, 0⟩ _ _ target
            (fun s => searchable.inRange mem) reached
          rw [is, ok_bind]
          dsimp only
          split
          next isNext =>
            have next : t < 1000 * r := of_decide_eq_true isNext
            rw [Bool.not_eq_true', Bool.not_eq_false] at matched
            exact ⟨_, rfl, @DaySearch.found _ _ _ _ _ [] _ _ _ rfl matched
              (fun a mem => absurd mem List.not_mem_nil) reached next⟩
          next notNext =>
            have notAfter : ¬ t < 1000 * r := fun lt => notNext (decide_eq_true lt)
            exact ⟨u, rest, search.skip fun _ => .of_reached reached notAfter⟩

/-! The days. -/

/-- What the loop over the days from `n` on comes to: a matching minute whose instant is after
`t`, as no earlier one's is. -/
structure Answer (cron : Cron) (zone : Zone) (t n d : Int) (time : Nat × Nat) (r : Int) : Prop where
  from_ : n ≤ d
  mem : time ∈ timesOfDay
  matched : matchesDate cron d = true
  matchedTime : matchesTime cron time.1 time.2 = true
  reached : zone.Reached (secondsAt d time) r
  next : t < 1000 * r
  earliest : ∀ d' a, n ≤ d' → a ∈ timesOfDay → matchesDate cron d' = true →
    matchesTime cron a.1 a.2 = true → secondsAt d' a < secondsAt d time →
      Past zone t (secondsAt d' a)

/-- A day without an answer is passed over. -/
theorem Answer.skip {n d r : Int} {time : Nat × Nat}
    (answer : Answer cron zone t (n + 1) d time r)
    (past : matchesDate cron n = true → ∀ a ∈ timesOfDay, matchesTime cron a.1 a.2 = true →
      Past zone t (secondsAt n a)) : Answer cron zone t n d time r where
  from_ := by
    have := answer.from_
    omega
  mem := answer.mem
  matched := answer.matched
  matchedTime := answer.matchedTime
  reached := answer.reached
  next := answer.next
  earliest := by
    intro d' a low mem matched matchedTime before
    by_cases here : d' = n
    · subst here
      exact past matched a mem matchedTime
    · exact answer.earliest d' a (by omega) mem matched matchedTime before

/-- The times before an element of a day's list are those earlier in the day. -/
theorem mem_before {before rest : List (Nat × Nat)} {time a : Nat × Nat} {n : Int}
    (split : timesOfDay = before ++ time :: rest) (mem : a ∈ timesOfDay)
    (earlier : secondsAt n a < secondsAt n time) : a ∈ before := by
  have sorted := timesOfDay_sorted n
  rw [split] at mem sorted
  obtain ⟨-, tail, -⟩ := List.pairwise_append.mp sorted
  rcases List.mem_append.mp mem with front | back
  · exact front
  · rcases List.mem_cons.mp back with rfl | back
    · exact absurd earlier (lt_irrefl _)
    · have := List.rel_of_pairwise_cons tail back
      omega

/-- The date that the walk comes to on a day. -/
theorem dateUTC_start {n : Int} (low : firstDay + 2 ≤ n) {i : Nat} (high : n + i ≤ 99999997) :
    dateUTC (date n).year (date n).month ((date n).day + i) 0 0 0 = some ((n + i) * dayMs) := by
  have late : 100 ≤ (date n).year := yearOf_ge (by omega)
  have moved : dayNumber (date n).year (date n).month ((date n).day + i) = n + i := by
    have own := dayNumber_date n
    unfold dayNumber at own ⊢
    omega
  rw [dateUTC_eq late, moved]
  unfold firstDay at low
  refine (if_pos ⟨?_, ?_⟩).trans (congrArg some (by simp))
  · unfold maxTime dayMs
    omega
  · unfold maxTime dayMs
    omega

theorem searchDays_spec {n : Int} {start : Wall} (own : start = wallAt (zone.clock (t / 1000)))
    (day : zone.clock (t / 1000) / 86400 = n) (low : firstDay + 2 ≤ n) {fuel i k : Nat}
    (begun : i ≤ k) (enough : k < i + fuel) (high : n + k ≤ 99999997)
    (matched : matchesDate cron (n + k) = true) {time : Nat × Nat} (mem : time ∈ timesOfDay)
    (matchedTime : matchesTime cron time.1 time.2 = true)
    (next : ¬ Past zone t (secondsAt (n + k) time)) :
    ∃ d a r, searchDays cron zone t start fuel i = .ok (1000 * r) ∧
      Answer cron zone t (n + i) d a r := by
  induction fuel generalizing i with
  | zero => omega
  | succ fuel ih =>
      have searchable : Searchable (n + i) := ⟨by omega, by omega⟩
      have clock : asUtc start = some (1000 * zone.clock (t / 1000)) := by
        unfold firstDay at low
        rw [own]
        exact asUtc_wallAt (by unfold firstDay; omega) (by unfold maxTime; omega)
      have year : start.year = (date n).year := by
        have late : 100 ≤ (date n).year := yearOf_ge (by omega)
        rw [own, ← day] at *
        exact if_pos (show 0 < (date (zone.clock (t / 1000) / 86400)).year by omega)
      have month : start.month = (date n).month := by rw [own, ← day]; rfl
      have startDay : start.day = (date n).day := by rw [own, ← day]; rfl
      -- a day without an answer is not the one that is known to have one
      have skip (past : matchesDate cron (n + i) = true → ∀ a ∈ timesOfDay,
          matchesTime cron a.1 a.2 = true → Past zone t (secondsAt (n + i) a)) :
          ∃ d a r, searchDays cron zone t start fuel (i + 1) = .ok (1000 * r) ∧
            Answer cron zone t (n + i) d a r := by
        have other : i ≠ k := by
          rintro rfl
          exact next (past matched time mem matchedTime)
        obtain ⟨d, a, r, is, answer⟩ := ih (i := i + 1) (by omega) (by omega)
        refine ⟨d, a, r, is, ?_⟩
        rw [show n + ((i + 1 : Nat) : Int) = n + i + 1 by push_cast; omega] at answer
        exact answer.skip past
      unfold searchDays
      rw [year, month, startDay, dateUTC_start low (by omega)]
      dsimp only
      rw [Int.mul_ediv_cancel (n + i) (show dayMs ≠ 0 by decide)]
      split
      next other =>
        rw [Bool.not_eq_true'] at other
        exact skip fun is => absurd (is.symm.trans other) nofun
      next dayMatched =>
        rw [Bool.not_eq_true', Bool.not_eq_false] at dayMatched
        obtain ⟨u, is, search⟩ := @searchTimes_spec cron zone t _ searchable _
          (fun _ mem => mem)
        rw [clock, is, ok_bind]
        cases search with
        | none past => exact skip fun _ => past
        | @found before rest a r split own past reached next =>
            refine ⟨n + i, a, r, rfl, ⟨le_rfl, split ▸ by simp, dayMatched, own, reached, next, ?_⟩⟩
            intro d' b from_ mem' _ matchedTime' earlier
            have bounds := secondsAt_bounds (n := d') mem'
            have bounds' := @secondsAt_bounds (n + i) a (split ▸ by simp)
            obtain rfl : d' = n + i := by omega
            exact past b (mem_before split mem' earlier) matchedTime'

/-! A cron that was accepted. -/

theorem FieldText.exists_added {f : Field} {s : Utf16} {items : List Item}
    (field : FieldText f s items) (within : f.min ≤ f.top ∧ f.min ≤ f.max) (other : f.max ≠ 7) :
    ∃ v ∈ added f items, v ≤ f.max := by
  obtain ⟨i, rest, rfl⟩ := List.exists_cons_of_ne_nil field.ne_nil
  obtain ⟨t, text⟩ := field.item List.mem_cons_self
  refine ⟨i.first f, ?_, (text.first_within within.2).2⟩
  exact (mem_added_iff_union field within.1 other).mpr ⟨i, List.mem_cons_self, .inl rfl⟩

/-- It has a time of day. -/
theorem exists_time {text : Utf16} (accepted : parseCron text = .ok cron) :
    ∃ time ∈ timesOfDay, matchesTime cron time.1 time.2 = true := by
  obtain ⟨items, ⟨p0, p1, p2, p3, p4, -, minutes, hours, -⟩, rfl, -⟩ := parseCron_eq_ok.mp accepted
  obtain ⟨minute, ofMinutes, low⟩ := minutes.exists_added (by decide) (by decide)
  obtain ⟨hour, ofHours, low'⟩ := hours.exists_added (by decide) (by decide)
  refine ⟨(hour, minute), mem_timesOfDay.mpr ⟨Nat.lt_succ_of_le low', Nat.lt_succ_of_le low⟩, ?_⟩
  unfold matchesTime
  rw [Bool.and_eq_true]
  exact ⟨decide_eq_true ofHours, decide_eq_true ofMinutes⟩

/-- It has a day in any 400 years. -/
theorem exists_day {text : Utf16} (accepted : parseCron text = .ok cron) (start : Int) :
    ∃ k : Nat, k < 146097 ∧ matchesDate cron (start + k) = true := by
  obtain ⟨items, -, rfl, n, -, -, matched⟩ := parseCron_eq_ok.mp accepted
  obtain ⟨k, lt, month, day, weekday⟩ := exists_cycle n start
  refine ⟨k, lt, ?_⟩
  unfold matchesDate
  rw [month, day, weekday]
  exact matched

/-! The occurrences. -/

theorem occurrence_iff {u : Int} : Occurrence cron zone u ↔
    ∃ d, ∃ time ∈ timesOfDay, matchesDate cron d = true ∧ matchesTime cron time.1 time.2 = true ∧
      ∃ r, u = 1000 * r ∧ zone.Reached (secondsAt d time) r := by
  constructor
  · rintro ⟨m, ⟨day, time⟩, first⟩
    exact ⟨m.day, (m.hour, m.minute), mem_timesOfDay.mpr ⟨m.hour.2, m.minute.2⟩, day, time,
      Zone.first_iff.mp first⟩
  · rintro ⟨d, time, mem, day, matched, r, rfl, reached⟩
    have proper := mem_timesOfDay.mp mem
    exact ⟨⟨d, ⟨time.1, proper.1⟩, ⟨time.2, proper.2⟩⟩, ⟨day, matched⟩,
      Zone.first_iff.mpr ⟨r, rfl, reached⟩⟩

theorem nextAfter_least {text : Utf16} (accepted : parseCron text = .ok cron)
    (low : firstStart ≤ t) (high : t ≤ lastStart) :
    ∃ u, nextAfter cron zone t = .ok u ∧ IsLeast {u | t < u ∧ Occurrence cron zone u} u := by
  unfold firstStart firstDay at low
  unfold lastStart at high
  obtain ⟨time, mem, matchedTime⟩ := exists_time accepted
  obtain ⟨k, lt, matched⟩ := exists_day accepted (zone.clock (t / 1000) / 86400 + 3)
  have clock := zone.clock_bounds (t / 1000)
  rw [add_assoc, show (3 : Int) + k = ((3 + k : Nat) : Int) by push_cast; rfl] at matched
  -- three days on, no offset makes the instant one before `t`
  have next : ¬ Past zone t (secondsAt (zone.clock (t / 1000) / 86400 + (3 + k : Nat)) time) := by
    rintro ⟨r, reached, notAfter⟩
    have bounds := reached.bounds
    have later := secondsAt_bounds (n := zone.clock (t / 1000) / 86400 + (3 + k : Nat)) mem
    push_cast at later bounds
    omega
  obtain ⟨d, a, r, is, answer⟩ := @searchDays_spec cron zone t _ _ rfl rfl
    (by unfold firstDay; omega) maxDays 0 _ (Nat.zero_le _) (by unfold maxDays cycleDays; omega)
    (by push_cast; omega) matched _ mem matchedTime next
  refine ⟨1000 * r, ?_, ⟨answer.next, ?_⟩, ?_⟩
  · unfold nextAfter
    rw [wallOf_eq (by unfold maxTime; omega) (by unfold maxTime; omega), ok_bind]
    exact is
  · exact occurrence_iff.mpr ⟨d, a, answer.mem, answer.matched, answer.matchedTime, r, rfl,
      answer.reached⟩
  · rintro u ⟨after, occurs⟩
    obtain ⟨d', b, mem', matched', matchedTime', q, rfl, reached⟩ := occurrence_iff.mp occurs
    by_cases later : secondsAt d a ≤ secondsAt d' b
    · have := answer.reached.mono reached later
      omega
    · -- an earlier minute is over: its day was walked, or is before the clock's own
      exfalso
      have past : Past zone t (secondsAt d' b) := by
        by_cases walked : zone.clock (t / 1000) / 86400 ≤ d'
        · exact answer.earliest d' b (by push_cast; omega) mem' matched' matchedTime' (by omega)
        · have := secondsAt_bounds (n := d') mem'
          exact .of_le (by omega)
      obtain ⟨p, first, notAfter⟩ := past
      obtain rfl := first.unique reached
      omega

/-! Repeated calls. -/

theorem searchTimes_gt {startUtc : Option Int} {d : Date} {times : List (Nat × Nat)} {u : Int}
    (is : searchTimes cron zone t startUtc d times = .ok (some u)) : t < u := by
  induction times with
  | nil => exact absurd (Except.ok.inj is) nofun
  | cons time times ih =>
      unfold searchTimes at is
      dsimp only at is
      split at is
      · exact ih is
      split at is
      · exact ih is
      obtain ⟨⟨first, inGap⟩, -, is⟩ := bind_eq_ok_iff.mp is
      dsimp only at is
      split at is
      next next =>
        cases is
        exact of_decide_eq_true next
      · exact ih is

theorem searchDays_gt {start : Wall} {fuel i : Nat} {u : Int}
    (is : searchDays cron zone t start fuel i = .ok u) : t < u := by
  induction fuel generalizing i with
  | zero => exact absurd is nofun
  | succ fuel ih =>
      unfold searchDays at is
      split at is
      · exact ih is
      split at is
      · exact ih is
      obtain ⟨found, search, is⟩ := bind_eq_ok_iff.mp is
      cases found with
      | none => exact ih is
      | some first =>
          cases is
          exact searchTimes_gt search

theorem nextAfter_gt {u : Int} (is : nextAfter cron zone t = .ok u) : t < u := by
  obtain ⟨start, -, search⟩ := bind_eq_ok_iff.mp is
  exact searchDays_gt search

theorem after_gt {k : Nat} {u : Int} (is : after cron zone (k + 1) t = .ok u) : t < u := by
  induction k generalizing t with
  | zero =>
      obtain ⟨v, first, rest⟩ := bind_eq_ok_iff.mp is
      cases rest
      exact nextAfter_gt first
  | succ k ih =>
      obtain ⟨v, first, rest⟩ := bind_eq_ok_iff.mp is
      exact (nextAfter_gt first).trans (ih rest)

theorem after_add {j k : Nat} {u : Int} (is : after cron zone j t = .ok u) :
    after cron zone (j + k) t = after cron zone k u := by
  induction j generalizing t with
  | zero =>
      cases is
      rw [Nat.zero_add]
  | succ j ih =>
      obtain ⟨v, first, rest⟩ := bind_eq_ok_iff.mp is
      rw [Nat.add_right_comm]
      change (nextAfter cron zone t >>= after cron zone (j + k)) = _
      rw [first, ok_bind]
      exact ih rest

/-- No instant is answered twice. -/
theorem after_injective {j k : Nat} {u : Int} (first : after cron zone j t = .ok u)
    (second : after cron zone k t = .ok u) : j = k := by
  have ordered : ∀ {j k}, after cron zone j t = .ok u → after cron zone k t = .ok u → ¬ j < k := by
    intro j k first second lt
    obtain ⟨i, rfl⟩ := Nat.exists_eq_add_of_lt lt
    rw [add_assoc, after_add first] at second
    exact lt_irrefl u (after_gt second)
  have := ordered first second
  have := ordered second first
  omega

theorem exists_after {text : Utf16} (accepted : parseCron text = .ok cron) {u : Int}
    (low : firstStart ≤ t) (next : t < u) (high : u ≤ lastStart) (occurs : Occurrence cron zone u) :
    ∃ k, after cron zone k t = .ok u := by
  induction gap : (u - t).toNat using Nat.strong_induction_on generalizing t with
  | h n ih =>
      obtain ⟨v, is, ⟨later, -⟩, least⟩ := @nextAfter_least _ zone _ _ accepted low (by omega)
      have le : v ≤ u := least ⟨next, occurs⟩
      by_cases same : v = u
      · refine ⟨1, ?_⟩
        change (nextAfter cron zone t >>= after cron zone 0) = _
        rw [is, ok_bind, same]
        rfl
      · obtain ⟨k, rest⟩ := ih (u - v).toNat (by omega) (t := v) (by omega) (by omega) rfl
        refine ⟨k + 1, ?_⟩
        change (nextAfter cron zone t >>= after cron zone k) = _
        rw [is, ok_bind]
        exact rest

/-- From the year 100 until 400 years before the end of `Date`: a call answers the least
occurrence after its instant, of first instants that every minute has one of, and the calls from
each answer on come to every minute's first instant once. -/
theorem nextAfter_runs {text : Utf16} (accepted : parseCron text = .ok cron) (zone : Zone)
    (low : firstStart ≤ t) (high : t ≤ lastStart) :
    (∃ u, nextAfter cron zone t = .ok u ∧ IsLeast {u | t < u ∧ Occurrence cron zone u} u) ∧
    (∀ m : Minute, ∃! u, zone.First (1000 * m.seconds) u) ∧
    ∀ m : Minute, m.Matches cron → ∀ u, zone.First (1000 * m.seconds) u → t < u → u ≤ lastStart →
      ∃! k, after cron zone k t = .ok u := by
  refine ⟨nextAfter_least accepted low high, fun m => zone.existsUnique_first m.seconds, ?_⟩
  intro m matched u first next before
  obtain ⟨k, is⟩ := exists_after accepted low next before ⟨m, matched, first⟩
  exact ⟨k, is, fun j other => after_injective other is⟩

/-- A clock that goes forward an hour at 2026-03-29T01:00Z. -/
def springForward : Zone where
  offset := fun s => if s < 1774746000 then 3600 else 7200
  bounded := fun s => by
    split <;> omega
  apart := fun s s' moved moved' lt => by
    split at moved <;> split at moved <;> split at moved' <;> split at moved' <;> omega

/-- `30 2 * * *`. -/
def halfPastTwo : Cron := parsed {
  minutes := [⟨.one 30, none⟩]
  hours := [⟨.one 2, none⟩]
  days := [⟨.star, none⟩]
  months := [⟨.star, none⟩]
  weekdays := [⟨.star, none⟩] }

theorem parseCron_halfPastTwo : parseCron (Utf16.ofText "30 2 * * *") = .ok halfPastTwo := by
  have parsed : (parseCron (Utf16.ofText "30 2 * * *")).toOption = some halfPastTwo := by
    decide +kernel
  cases parse : parseCron (Utf16.ofText "30 2 * * *") with
  | error e =>
      rw [parse] at parsed
      exact absurd parsed nofun
  | ok cron =>
      rw [parse] at parsed
      exact congrArg _ (Option.some.inj parsed)

/-- Half past two is skipped there, and runs at the end of the gap. -/
theorem nextAfter_runs_gap : IsLeast
    {u | 1774699200000 < u ∧ Occurrence halfPastTwo springForward u} 1774746000000 := by
  obtain ⟨⟨u, is, least⟩, -⟩ := nextAfter_runs parseCron_halfPastTwo springForward
    (t := 1774699200000) (by decide) (by decide)
  have run : nextAfter halfPastTwo springForward 1774699200000 = .ok 1774746000000 := by
    decide +kernel
  cases is.symm.trans run
  exact least

def utc : Zone where
  offset := fun _ => 0
  bounded := fun _ => by decide
  apart := fun _ _ moved => absurd rfl moved

/-- In the year 50 the answer is a minute of 1950. -/
theorem nextAfter_year50 : ¬ ∀ (text : Utf16) (cron : Cron) (zone : Zone) (t : Int),
    parseCron text = .ok cron → -maxTime ≤ t → t ≤ maxTime →
      ∃ u, nextAfter cron zone t = .ok u ∧ IsLeast {u | t < u ∧ Occurrence cron zone u} u := by
  intro every
  obtain ⟨u, is, -, least⟩ := every _ _ utc (-60589296000000) parseCron_halfPastTwo
    (by decide) (by decide)
  have run : nextAfter halfPastTwo utc (-60589296000000) = .ok (-631143000000) := by
    decide +kernel
  cases is.symm.trans run
  have first : utc.First (1000 * (Minute.mk (-701265) 2 30).seconds) (-60589287000000) := by
    refine .read (by decide) fun v same => ?_
    have moment : v + 1000 * 0 = -60589287000000 := same
    omega
  have := least ⟨by decide, Minute.mk (-701265) 2 30, ⟨by decide +kernel, by decide⟩, first⟩
  exact absurd this (by decide)

end NxgtData.Schedule
