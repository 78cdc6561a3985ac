import NxgtData.Lib.Bucket
import NxgtData.Queue.Charges

/-!
The rate of a queue over a run. What the scripts start is what a leaky bucket
conforms to, on the server's clock: the rate's key tells its arrival time.
-/
namespace NxgtData.Queue
open Gcra Bucket

variable {m : GroupArgs} {q : Keys} {us : Nat} {rate : Rate}

/-! The rate's key over a run, as the bucket's arrival time. -/

/-- The key tells the arrival time `tat`, in ticks, until it is past its `PX`. -/
structure Meters (rate : Rate) (key : Option Stored) (latest tat : Nat) : Prop where
  written : ∀ s ∈ key, ∃ ahead ≤ rate.tolerance,
    s.text = s!"{latest} {ahead}" ∧ tat = latest * rate.limit + ahead
  drained : ∀ s ∈ key, tat ≤ (s.expires + 1) * 1000 * rate.limit
  absent : key = none → tat = 0
  exact : latest ≤ safe

section Meters
variable {key key' : Option Stored} {latest tat k : Nat}

theorem Meters.level (h : Meters rate key latest tat) (bounded : rate.tolerance ≤ safe)
    (later : latest ≤ us) :
    level rate us (Gcra.get key (us / 1000)) =
      (us, max tat (us * rate.limit) - us * rate.limit) := by
  have empty : tat ≤ us * rate.limit → Gcra.get key (us / 1000) = none →
      Gcra.level rate us (Gcra.get key (us / 1000)) =
        (us, max tat (us * rate.limit) - us * rate.limit) := by
    intro drained gone
    rw [gone, max_eq_right drained, Nat.sub_self, level_none]
  cases key with
  | none =>
      refine empty ?_ rfl
      rw [h.absent rfl]
      exact Nat.zero_le _
  | some s =>
      by_cases past : s.expires < us / 1000
      · refine empty ((h.drained s rfl).trans (Nat.mul_le_mul_right _ (by omega))) ?_
        rw [Gcra.get, Option.bind_some, if_pos past]
      · obtain ⟨ahead, fits, text, same⟩ := h.written s rfl
        rw [Gcra.get, Option.bind_some, if_neg past, text,
          level_written h.exact fits bounded (later.trans (Nat.le_add_right _ _)),
          max_eq_right later, same]

/-- A charge is a spend that conforms. -/
theorem Meters.charge (h : Meters rate key latest tat) (positive : 0 < rate.limit)
    (bounded : rate.tolerance ≤ safe) (priced : 0 < rate.unit) (later : latest ≤ us)
    (exact : us ≤ safe) (starts : 0 < k) (charges : Charges rate us k key key') :
    Meters rate key' us (arrive tat (us * rate.limit) (k * rate.unit)) ∧
      arrive tat (us * rate.limit) (k * rate.unit) ≤ us * rate.limit + rate.tolerance := by
  have reads := h.level bounded later
  have allowed := charges.allowed starts
  have fits := (gcra_allowed reads).mp allowed
  have written := (charges.charged starts).trans (gcra_written reads allowed ⟨rfl, starts⟩)
  have price : 0 < k * rate.unit := Nat.mul_pos starts priced
  rw [Nat.sub_self] at written
  unfold arrive
  generalize level : max tat (us * rate.limit) - us * rate.limit = d at fits written
  have total : max tat (us * rate.limit) + k * rate.unit =
      us * rate.limit + (d + k * rate.unit) := by omega
  have room : d + k * rate.unit ≤ rate.tolerance := by omega
  have drain := le_ms_mul positive (d + k * rate.unit)
  rw [total]
  generalize d + k * rate.unit = ahead at written room drain
  refine ⟨⟨?_, ?_, fun none => ?_, exact⟩, Nat.add_le_add_left room _⟩
  · rintro s mem
    rw [written] at mem
    cases mem
    exact ⟨ahead, room, rfl, rfl⟩
  · rintro s mem
    rw [written] at mem
    cases mem
    dsimp only
    have reach : us + ms rate.limit ahead * 1000 ≤
        (us / 1000 + (ms rate.limit ahead + ceildiv 0 1000) + 1) * 1000 := by omega
    calc us * rate.limit + ahead
        ≤ us * rate.limit + ms rate.limit ahead * 1000 * rate.limit :=
          Nat.add_le_add_left drain _
      _ = (us + ms rate.limit ahead * 1000) * rate.limit := (Nat.add_mul _ _ _).symm
      _ ≤ _ := Nat.mul_le_mul_right rate.limit reach
  · rw [written] at none
    cases none

end Meters

/-- The scripts that start jobs, as the clock they read and how many they start. -/
def startsFrom (m : GroupArgs) (calls : List Timed) (q : Keys) : List (Nat × Nat) :=
  ((logFrom m calls q).map fun e => (e.1.1, e.2.started)).filter fun e => 0 < e.2

theorem startsFrom_cons (c : Timed) (calls : List Timed) :
    startsFrom m (c :: calls) q =
      if 0 < (step m c q).1.started then
        (c.1, (step m c q).1.started) :: startsFrom m calls (step m c q).2
      else startsFrom m calls (step m c q).2 := by
  simp only [startsFrom, logFrom, served, List.map_cons, List.filter_cons, decide_eq_true_eq]

theorem Meters.conforming {latest tat : Nat} {calls : List Timed} (positive : 0 < rate.limit)
    (bounded : rate.tolerance ≤ safe) (priced : 0 < rate.unit)
    (meters : Meters rate q.rate latest tat) (rated : ∀ c ∈ calls, c.2.Rated rate)
    (clock : (latest :: calls.map Prod.fst).Pairwise (· ≤ ·)) (exact : ∀ c ∈ calls, c.1 ≤ safe) :
    Conforms rate.tolerance (latest * rate.limit) tat
      ((startsFrom m calls q).map fun x => (x.1 * rate.limit, x.2 * rate.unit)) := by
  induction calls generalizing q latest tat with
  | nil => exact .nil _ _
  | cons c calls ih =>
      have charges : Charges rate c.1 (step m c q).1.started q.rate (step m c q).2.rate :=
        exec_charges priced (rated c List.mem_cons_self)
      obtain ⟨least, ordered⟩ := List.pairwise_cons.mp clock
      have later := least c.1 List.mem_cons_self
      have rest : ∀ {latest tat : Nat}, latest ≤ c.1 → Meters rate (step m c q).2.rate latest tat →
          Conforms rate.tolerance (latest * rate.limit) tat
            ((startsFrom m calls (step m c q).2).map fun x =>
              (x.1 * rate.limit, x.2 * rate.unit)) := by
        intro latest tat before meters
        refine ih meters (fun c mem => rated c (List.mem_cons_of_mem _ mem)) ?_
          fun c mem => exact c (List.mem_cons_of_mem _ mem)
        refine List.pairwise_cons.mpr ⟨fun us mem => ?_, (List.pairwise_cons.mp ordered).2⟩
        exact before.trans ((List.pairwise_cons.mp ordered).1 us mem)
      rw [startsFrom_cons]
      split
      next starts =>
        have spend := meters.charge positive bounded priced later (exact c List.mem_cons_self)
          starts charges
        exact .cons (Nat.mul_le_mul_right _ later) spend.2 (rest le_rfl spend.1)
      next idle =>
        refine rest later ?_
        rw [show (step m c q).2.rate = q.rate from charges.idle (Nat.eq_zero_of_not_pos idle)]
        exact meters

/-- Over a run on a clock that never goes back, each script charges exactly the jobs
it starts and is not refused, so a window starts at most the burst and what it
refills; and a claim starts all that the rate allows, or all there is. -/
theorem run_rated (m : GroupArgs) (r : RateValues) (q : Keys) (fresh : q.rate = none)
    (calls : List Timed) (rated : ∀ c ∈ calls, c.2.Rated r.rate)
    (clock : (calls.map Prod.fst).Pairwise (· ≤ ·)) (exact : ∀ c ∈ calls, c.1 ≤ safe) :
    (∀ s e, s ≤ e → spent s e (startsFrom m calls q) * r.rate.unit ≤
      r.rate.burst * r.rate.unit + (e - s) * r.rate.limit) ∧
    (∀ us (c : Call) (q : Keys), c.Rated r.rate →
      Charges r.rate us (exec m us c q).1.started q.rate (exec m us c q).2.rate) ∧
    (∀ us n lease tokens (q : Keys), m.grouped = false →
      (∀ id ∈ q.ready, sound (q.hmget id) = true) →
      (claim m us n lease tokens (some r.rate) q).1.jobs.length =
        min (admitted us n (some r.rate) q) (claimReady m (us / 1000) q).q.ready.card) ∧
    ∀ us n k (q : Keys), q.paused = false → 0 < k →
      (k ≤ admitted us n (some r.rate) q ↔
        k ≤ n ∧ (gcra q.rate us r.rate k true).1.allowed = true) := by
  refine ⟨fun s e le => ?_, fun us c q rated => exec_charges r.unit_pos rated,
    fun us n lease tokens q ungrouped trusted => claim_starts ungrouped trusted lease tokens _,
    fun us n k q running starts => le_admitted_iff running r.unit_pos starts⟩
  have meters : Meters r.rate q.rate 0 0 := by
    rw [fresh]
    exact ⟨fun s mem => (by cases mem), fun s mem => (by cases mem), fun _ => rfl, Nat.zero_le _⟩
  have least : (0 :: calls.map Prod.fst).Pairwise (· ≤ ·) :=
    List.pairwise_cons.mpr ⟨fun us _ => Nat.zero_le us, clock⟩
  have bucket := meters.conforming (m := m) r.limit_pos r.tolerance_le r.unit_pos rated least exact
  have within := bucket.spent_le (Nat.mul_le_mul_right r.rate.limit le)
  rw [spent_scale r.limit_pos, ← Nat.sub_mul] at within
  exact within

/-! One job a second, one at once. -/

def onePerSecond : RateValues where
  limit := ⟨1, by decide⟩
  per := perSecond
  burst := ⟨1, by decide⟩
  exact := by decide
  refills := by decide

/-- Two jobs are added at a time, and claims of two come at three. -/
def ratedRun (added first second third : Nat) : List Timed :=
  [(added, .add [{ id := "a", data := "null", priority := 0, attempts := 1 },
      { id := "b", data := "null", priority := 0, attempts := 1 }]),
    (first, .claim 30000 (some onePerSecond.rate) ["t", "u"]),
    (second, .claim 30000 (some onePerSecond.rate) ["v", "w"]),
    (third, .claim 30000 (some onePerSecond.rate) ["x", "y"])]

theorem ratedRun_rated (added first second third : Nat) :
    ∀ c ∈ ratedRun added first second third, c.2.Rated onePerSecond.rate := by
  simp [ratedRun, Call.Rated]

theorem run_rated_onePerSecond :
    startsFrom ⟨false, 0⟩ (ratedRun 0 5000000 5999999 6000000) .empty =
      [(5000000, 1), (6000000, 1)] ∧
    ∀ s e, s ≤ e →
      spent s e (startsFrom ⟨false, 0⟩ (ratedRun 0 5000000 5999999 6000000) .empty) *
        onePerSecond.rate.unit ≤
      onePerSecond.rate.burst * onePerSecond.rate.unit + (e - s) * onePerSecond.rate.limit :=
  ⟨by decide +kernel, (run_rated ⟨false, 0⟩ onePerSecond .empty rfl _ (ratedRun_rated _ _ _ _)
    (by decide) (by decide)).1⟩

/-- Past 2^53 - 1 microseconds the script takes its own key for another's, so two
claims at one moment start a job each. -/
theorem late_overstarts :
    (∀ c ∈ ratedRun 0 (safe + 1) (safe + 1) (safe + 1), c.2.Rated onePerSecond.rate) ∧
    ((ratedRun 0 (safe + 1) (safe + 1) (safe + 1)).map Prod.fst).Pairwise (· ≤ ·) ∧
    spent (safe + 1) (safe + 1)
      (startsFrom ⟨false, 0⟩ (ratedRun 0 (safe + 1) (safe + 1) (safe + 1)) .empty) = 2 ∧
    onePerSecond.rate.burst = 1 :=
  ⟨ratedRun_rated _ _ _ _, by decide, by decide +kernel, rfl⟩

end NxgtData.Queue
