import NxgtData.Lib.Bucket
import NxgtData.Rate.Exact

/-!
One key under calls at any clock readings, while the server may drop it once its
`PX` has passed. The calls that write are spends of a leaky bucket on the clock
of the latest of them, in ticks: the stored text is its arrival time.
-/
namespace NxgtData.Gcra
open Bucket

/-- The key with the reading, in microseconds, at which it was written. -/
structure Held where
  stored : Stored
  written : Nat
  deriving DecidableEq, Repr

/-- The end of its `PX`, counted from the write. -/
def Held.ends (h : Held) : Nat := h.written + (h.stored.expires - h.written / 1000) * 1000

/-- A call, or the server dropping the key, at a clock reading in microseconds. -/
inductive Event where
  | call (now cost : Nat) (write : Bool)
  | drop (now : Nat)
  deriving DecidableEq, Repr

/-- The key and the readings so far: the latest of all, the latest of the calls
that wrote, and the end of the `PX` of the key last dropped. -/
structure Meter where
  key : Option Held
  seen : Nat
  latest : Nat
  dropped : Nat
  deriving DecidableEq, Repr

def Meter.absent : Meter := ⟨none, 0, 0, 0⟩

/-- What a call finds: the key is there until the server drops it. -/
def Meter.found (m : Meter) (now : Nat) : Option Stored :=
  m.key.map fun h => { h.stored with expires := max h.stored.expires (now / 1000) }

/-- Whether a call counts: it is allowed, and writes what it costs. -/
def Meter.counts (rate : Rate) (m : Meter) (now cost : Nat) (write : Bool) : Bool :=
  (gcra (m.found now) now rate cost write).1.allowed && write && decide (0 < cost)

def Meter.call (rate : Rate) (m : Meter) (now cost : Nat) (write : Bool) : Meter :=
  if m.counts rate now cost write then
    { m with
      key := (gcra (m.found now) now rate cost write).2.map fun s => ⟨s, now⟩
      seen := max m.seen now
      latest := max m.latest now }
  else { m with seen := max m.seen now }

def Meter.drop (m : Meter) (now : Nat) : Meter :=
  { m with
    key := none
    seen := max m.seen now
    dropped := m.key.elim m.dropped Held.ends }

def Meter.step (rate : Rate) (m : Meter) : Event → Meter
  | .call now cost write => m.call rate now cost write
  | .drop now => m.drop now

/-- What the calls cost that counted, each at the moment `mark` tells after it. -/
def Meter.spends (rate : Rate) (mark : Meter → Nat) : Meter → List Event → List (Nat × Nat)
  | _, [] => []
  | m, .call now cost write :: rest =>
      let next := m.call rate now cost write
      if m.counts rate now cost write then (mark next, cost) :: next.spends rate mark rest
      else next.spends rate mark rest
  | m, .drop now :: rest => (m.drop now).spends rate mark rest

/-- Every event is one that the state before it allows. -/
def Meter.Runs (rate : Rate) (ok : Meter → Event → Prop) : Meter → List Event → Prop
  | _, [] => True
  | m, event :: rest => ok m event ∧ (m.step rate event).Runs rate ok rest

/-- A full refill, in microseconds. -/
def Rate.refill (rate : Rate) : Nat := ceildiv rate.tolerance rate.limit

/-- The key is dropped no sooner than its `PX` after the write. -/
def Meter.Lapsed (m : Meter) (now : Nat) : Prop := ∀ h ∈ m.key, h.ends ≤ now

/-- Every reading is at most a full refill behind the latest. -/
def Meter.Near (rate : Rate) (m : Meter) : Event → Prop
  | .call now _ _ => m.seen ≤ now + rate.refill
  | .drop now => m.seen ≤ now + rate.refill ∧ m.Lapsed now

/-- The calls that count read a clock at most a full refill behind the latest that
counted, and no sooner than the end of the `PX` of a key dropped since. -/
def Meter.Steady (rate : Rate) (m : Meter) : Event → Prop
  | .call now cost write => m.counts rate now cost write → now ≤ safe ∧
      m.latest ≤ now + rate.refill ∧ (m.key = none → m.dropped ≤ now)
  | .drop now => m.Lapsed now

instance (m : Meter) (now : Nat) : Decidable (m.Lapsed now) :=
  inferInstanceAs (Decidable (∀ h ∈ m.key, h.ends ≤ now))

instance (rate : Rate) (m : Meter) : DecidablePred (m.Near rate)
  | .call now _ _ => inferInstanceAs (Decidable (m.seen ≤ now + rate.refill))
  | .drop now => inferInstanceAs (Decidable (m.seen ≤ now + rate.refill ∧ m.Lapsed now))

instance (rate : Rate) (m : Meter) : DecidablePred (m.Steady rate)
  | .call now cost write => inferInstanceAs (Decidable (m.counts rate now cost write → _ ∧ _))
  | .drop now => inferInstanceAs (Decidable (m.Lapsed now))

instance Meter.runsDecidable (rate : Rate) (ok : Meter → Event → Prop)
    [∀ m, DecidablePred (ok m)] : (m : Meter) → (events : List Event) →
    Decidable (m.Runs rate ok events)
  | _, [] => .isTrue trivial
  | m, event :: rest =>
      have := runsDecidable rate ok (m.step rate event) rest
      inferInstanceAs (Decidable (ok m event ∧ (m.step rate event).Runs rate ok rest))

/-! The stored text is the arrival time of the bucket. -/

/-- The end of the `PX`, of the key there or the one last dropped. -/
def Meter.ends (m : Meter) : Nat := m.key.elim m.dropped Held.ends

/-- The key tells the arrival time `tat`, in ticks, until its `PX` has passed it. -/
structure Meter.Follows (rate : Rate) (m : Meter) (tat : Nat) : Prop where
  written : ∀ h ∈ m.key, ∃ ahead ≤ rate.tolerance,
    h.stored.text = s!"{m.latest} {ahead}" ∧ tat = m.latest * rate.limit + ahead
  exact : m.latest ≤ safe
  later : m.latest ≤ m.ends
  drained : tat ≤ m.ends * rate.limit

theorem Meter.follows_absent (rate : Rate) : Meter.absent.Follows rate 0 where
  written := fun h mem => by cases mem
  exact := Nat.zero_le _
  later := Nat.zero_le _
  drained := Nat.zero_le _

section Steps
variable {rate : Rate} {m : Meter} {tat now cost : Nat} {write : Bool}

/-- The base and the level a call of the bucket reads. -/
def Rate.reads (rate : Rate) (latest tat now : Nat) : Nat × Nat :=
  (max latest now, max tat (max latest now * rate.limit) - max latest now * rate.limit)

theorem Meter.Follows.reads (h : m.Follows rate tat) (bounded : rate.tolerance ≤ safe)
    (near : m.latest ≤ now + rate.refill) (after : m.key = none → m.dropped ≤ now) :
    level rate now (get (m.found now) (now / 1000)) = rate.reads m.latest tat now := by
  unfold Meter.found
  cases key : m.key with
  | none =>
      have ended : m.ends = m.dropped := by rw [Meter.ends, key, Option.elim_none]
      have past : m.ends ≤ now := by
        rw [ended]
        exact after key
      have full := h.drained.trans (Nat.mul_le_mul_right rate.limit past)
      rw [Option.map_none, Rate.reads, max_eq_right (h.later.trans past), max_eq_right full,
        Nat.sub_self]
      rfl
  | some held =>
      obtain ⟨ahead, fits, text, same⟩ := h.written held key
      have there : get (some { held.stored with expires := max held.stored.expires (now / 1000) })
          (now / 1000) = some held.stored.text := by
        rw [get, Option.bind_some, if_neg (by dsimp only; omega)]
      rw [Option.map_some, there, text, level_written h.exact fits bounded near, same]
      rfl

/-- The `PX` of a write outlasts what is ahead of its base. -/
theorem ends_drained {base : Nat} (positive : 0 < rate.limit) (later : now ≤ base)
    (ahead : Nat) :
    base * rate.limit + ahead ≤ Held.ends ⟨⟨s!"{base} {ahead}",
      now / 1000 + (ms rate.limit ahead + ceildiv (base - now) 1000)⟩, now⟩ * rate.limit := by
  have drain := le_ms_mul positive ahead
  have behind := le_ceildiv_mul (base - now) (b := 1000) (by decide)
  have reach : base + ms rate.limit ahead * 1000 ≤
      now + (ms rate.limit ahead + ceildiv (base - now) 1000) * 1000 := by omega
  unfold Held.ends
  rw [Nat.add_sub_cancel_left]
  calc base * rate.limit + ahead
      ≤ base * rate.limit + ms rate.limit ahead * 1000 * rate.limit :=
        Nat.add_le_add_left drain _
    _ = (base + ms rate.limit ahead * 1000) * rate.limit := (Nat.add_mul _ _ _).symm
    _ ≤ _ := Nat.mul_le_mul_right rate.limit reach

/-- A call that counts is a spend that conforms. -/
theorem Meter.Follows.call (h : m.Follows rate tat) (positive : 0 < rate.limit)
    (priced : 0 < rate.unit) (bounded : rate.tolerance ≤ safe) (counts : m.counts rate now cost write)
    (steady : m.Steady rate (.call now cost write)) :
    (m.call rate now cost write).Follows rate
        (arrive tat (max m.latest now * rate.limit) (cost * rate.unit)) ∧
      arrive tat (max m.latest now * rate.limit) (cost * rate.unit) ≤
        max m.latest now * rate.limit + rate.tolerance := by
  obtain ⟨exact, near, after⟩ := steady counts
  have reads := h.reads bounded near after
  unfold Rate.reads at reads
  have allowed := counts
  unfold Meter.counts at allowed
  simp only [Bool.and_eq_true, decide_eq_true_eq] at allowed
  have text := gcra_written reads allowed.1.1 ⟨allowed.1.2, allowed.2⟩
  have fits := (gcra_allowed reads).mp allowed.1.1
  unfold Meter.call arrive
  rw [if_pos counts, text, Option.map_some]
  generalize level : max tat (max m.latest now * rate.limit) - max m.latest now * rate.limit = d
    at fits
  have total : max tat (max m.latest now * rate.limit) + cost * rate.unit =
      max m.latest now * rate.limit + (d + cost * rate.unit) := by omega
  have price : 0 < cost * rate.unit := Nat.mul_pos allowed.2 priced
  have room : d + cost * rate.unit ≤ rate.tolerance := by omega
  have later : now ≤ max m.latest now := le_max_right _ _
  have drains := ends_drained positive later (d + cost * rate.unit)
  rw [total]
  refine ⟨⟨?_, max_le h.exact exact, ?_, ?_⟩, Nat.add_le_add_left room _⟩
  · intro held mem
    cases mem
    exact ⟨_, room, rfl, rfl⟩
  · exact le_of_mul_le_mul_right ((Nat.le_add_right _ _).trans drains) positive
  · exact drains

/-- A call that does not count leaves the key and its arrival time. -/
theorem Meter.Follows.uncounted (h : m.Follows rate tat)
    (idle : ¬ m.counts rate now cost write) : (m.call rate now cost write).Follows rate tat := by
  unfold Meter.call
  rw [if_neg idle]
  exact ⟨h.written, h.exact, h.later, h.drained⟩

theorem Meter.Follows.drop (h : m.Follows rate tat) : (m.drop now).Follows rate tat := by
  have ends : (m.drop now).ends = m.ends := rfl
  refine ⟨fun held mem => (by cases mem), h.exact, ?_, ?_⟩
  · rw [ends]
    exact h.later
  · rw [ends]
    exact h.drained

end Steps

/-- Over a run the calls that count conform, in ticks. -/
theorem Meter.Follows.conforming {rate : Rate} (positive : 0 < rate.limit)
    (priced : 0 < rate.unit) (bounded : rate.tolerance ≤ safe) {m : Meter} {tat : Nat}
    {events : List Event} (h : m.Follows rate tat) (runs : m.Runs rate (Meter.Steady rate) events) :
    Conforms rate.tolerance (m.latest * rate.limit) tat
      ((m.spends rate Meter.latest events).map fun x => (x.1 * rate.limit, x.2 * rate.unit)) := by
  induction events generalizing m tat with
  | nil => exact .nil _ _
  | cons event rest ih =>
      obtain ⟨steady, later⟩ := runs
      cases event with
      | drop now => exact ih h.drop later
      | call now cost write =>
          unfold Meter.spends
          by_cases counts : m.counts rate now cost write
          · have spend := h.call positive priced bounded counts steady
            have time : (m.call rate now cost write).latest = max m.latest now := by
              rw [Meter.call, if_pos counts]
            have rest := ih spend.1 later
            rw [time] at rest
            simp only [if_pos counts, List.map_cons, time]
            exact .cons (Nat.mul_le_mul_right _ (le_max_left _ _)) spend.2 rest
          · have same : (m.call rate now cost write).latest = m.latest := by
              rw [Meter.call, if_neg counts]
            have rest := ih (h.uncounted counts) later
            rw [same] at rest
            simp only [if_neg counts]
            exact rest

/-- In any window of the clock that the calls that count have reached, they cost at
most the burst and what the window refills; the other calls change nothing. -/
theorem conforms (r : RateValues) (events : List Event)
    (runs : Meter.absent.Runs r.rate (Meter.Steady r.rate) events) :
    (∀ s e, s ≤ e → spent s e (Meter.absent.spends r.rate Meter.latest events) * r.rate.unit ≤
      r.rate.burst * r.rate.unit + (e - s) * r.rate.limit) ∧
    ∀ key now cost write,
      ¬ ((gcra key now r.rate cost write).1.allowed = true ∧ write ∧ cost > 0) →
      (gcra key now r.rate cost write).2 = key := by
  refine ⟨fun s e le => ?_, fun key now cost write => gcra_unwritten⟩
  have bucket := (Meter.follows_absent r.rate).conforming r.limit_pos r.unit_pos r.tolerance_le runs
  have within := bucket.spent_le (Nat.mul_le_mul_right r.rate.limit le)
  rw [spent_scale r.limit_pos, ← Nat.sub_mul] at within
  exact within

/-! Ten requests a second, at once or over it. -/

def tenPerSecond : RateValues where
  limit := ⟨10, by decide⟩
  per := perSecond
  burst := ⟨10, by decide⟩
  exact := by decide
  refills := by decide

/-- The burst, a peek half a second behind it, and the burst again after the drop. -/
def steadyEvents : List Event :=
  [.call 5000000 10 true, .call 4500000 1 false, .drop 6000000, .call 6000000 10 true]

theorem conforms_tenPerSecond :
    Meter.absent.Runs tenPerSecond.rate (Meter.Steady tenPerSecond.rate) steadyEvents ∧
    ∀ s e, s ≤ e →
      spent s e (Meter.absent.spends tenPerSecond.rate Meter.latest steadyEvents) *
        tenPerSecond.rate.unit ≤
      tenPerSecond.rate.burst * tenPerSecond.rate.unit + (e - s) * tenPerSecond.rate.limit := by
  have runs : Meter.absent.Runs tenPerSecond.rate (Meter.Steady tenPerSecond.rate)
      steadyEvents := by
    decide +kernel
  exact ⟨runs, (conforms tenPerSecond steadyEvents runs).1⟩

/-- A peek sees a time that no key keeps, the clock goes back a full refill, and
forward again. -/
def peekedEvents : List Event :=
  [.call 5000000 1 false, .call 4000000 10 true, .call 5000000 10 true]

/-- The same, the time being that of a drop. -/
def droppedEvents : List Event :=
  [.call 5000000 10 true, .drop 6001000, .call 5001000 10 true, .call 6001000 10 true]

/-- A clock past 2^53 - 1 microseconds. -/
def lateEvents : List Event := [.call (safe + 1) 10 true, .call (safe + 1) 10 true]

/-- Twice the burst counts at one moment of the running maximum, with every reading
at most a full refill behind the latest. -/
def Overspends (events : List Event) (time : Nat) : Prop :=
  Meter.absent.Runs tenPerSecond.rate (Meter.Near tenPerSecond.rate) events ∧
    spent time time (Meter.absent.spends tenPerSecond.rate Meter.seen events) =
      2 * tenPerSecond.rate.burst

instance (events : List Event) (time : Nat) : Decidable (Overspends events time) :=
  inferInstanceAs (Decidable (_ ∧ _))

theorem near_overspends :
    Overspends peekedEvents 5000000 ∧ Overspends droppedEvents 6001000 ∧
      Overspends lateEvents (safe + 1) := by
  decide +kernel

end NxgtData.Gcra
