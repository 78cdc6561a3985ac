import NxgtData.Backup.Lock
import Mathlib.Tactic.Common

/-!
One writer of the lock, act by act. While its lease is sure to be held, its file is
there, no delete of it is asked for, and the end that it says is no earlier than the
writer's own deadline, but for the time to begin a write.
-/
namespace NxgtData.Backup.Lock

variable {lease slack now : Nat} {wall : Nat → Nat → Int}

/-- How far the wall clocks are from the monotonic ones differs, between any two
readings, by less than a lease minus the time to begin a write. -/
def Clocks (lease slack : Nat) (wall : Nat → Nat → Int) : Prop :=
  ∀ i j s t, (wall j t - t) - (wall i s - s) < (lease : Int) - slack

/-- The record says an end that is no earlier than a deadline, but for the time to
begin a write. -/
def Covers (lease slack : Nat) (clock : Nat → Int) (deadline : Nat) (r : LockRecord) : Prop :=
  ∃ s : Nat, deadline ≤ s + slack + lease ∧ clock s + lease ≤ r.expiresAt

theorem Covers.stale {i j u deadline : Nat} {r : LockRecord} (clocks : Clocks lease slack wall)
    (covers : Covers lease slack (wall i) deadline r) (stale : r.expiresAt + lease < wall j u) :
    deadline ≤ u := by
  obtain ⟨s, le, ends⟩ := covers
  have apart := clocks i j s u
  omega

theorem Covers.max {clock : Nat → Int} {a b : Nat} {r : LockRecord}
    (left : Covers lease slack clock a r) (right : Covers lease slack clock b r) :
    Covers lease slack clock (Max.max a b) r := by
  rcases Nat.le_total a b with le | le
  · rw [Nat.max_eq_right le]
    exact right
  · rw [Nat.max_eq_left le]
    exact left

/-- The phases in which a writer has a file that counts. -/
def Phase.live : Phase → Bool
  | .writing | .placed | .looking _ _ | .forgetting _ _ _ | .held => true
  | _ => false

/-- The keys that a writer has yet to read, once it has listed. -/
def Phase.due : Phase → Option (List Nat)
  | .looking _ due | .forgetting _ due _ => some due
  | .held => some []
  | _ => none

theorem Phase.live_of_due {phase : Phase} {due : List Nat} (is : phase.due = some due) :
    phase.live = true := by
  cases phase with
  | looking | forgetting | held => rfl
  | _ => cases is

theorem Phase.ne_of_due {phase : Phase} {due : List Nat} (is : phase.due = some due) :
    phase ≠ .absent ∧ phase ≠ .writing := by
  cases phase with
  | absent | writing => cases is
  | _ => exact ⟨Phase.noConfusion, Phase.noConfusion⟩

/-- What a writer keeps in the repository while its lease is sure to be held. -/
structure Firm (lease slack : Nat) (clock : Nat → Int) (x : Writer) : Prop where
  deletes : x.deletes = 0
  file : ∀ r, x.file = some (.lock r) → Covers lease slack clock x.deadline r
  put : ∀ p, x.put = some p → Covers lease slack clock x.deadline p.record ∧
    (∀ next, x.renewal = some next → Covers lease slack clock next p.record) ∧
    (p.landed = true → x.file = some (.lock p.record))
  sure : x.phase ≠ .writing → x.sure = true

structure Kept (lease slack now : Nat) (clock : Nat → Int) (x : Writer) : Prop where
  fresh : x.phase.wrote = false → x.file = none ∧ x.put = none ∧ x.deletes = 0 ∧ x.renewal = none
  begun : ∀ r since, x.phase = .begun r since → clock since + lease ≤ r.expiresAt
  deadline : x.deadline ≤ now + lease
  next : ∀ next, x.renewal = some next → next ≤ now + lease
  reads : ∀ v due, (x.phase = .looking v due ∨ ∃ k, x.phase = .forgetting v due k) →
    ∃ u ≤ now, v = clock u
  sure : x.sure = true → x.file ≠ none
  awaited : ∀ p, x.put = some p → x.phase = .writing ∨ x.renewal ≠ none
  firm : x.phase.live = true → x.held now = true → Firm lease slack clock x

/-- Its lease is out, or it gave the lock up, and so it stays. -/
def Spent (now : Nat) (x : Writer) : Prop :=
  x.phase.wrote = true ∧ ¬ (x.phase.live = true ∧ x.held now = true)

/-- A writer goes on: a lease that is out, or given up, does not come back. -/
structure Follows (now : Nat) (x x' : Writer) : Prop where
  absent : x.phase = .absent → x'.phase = .absent
  wrote : x.phase.wrote = true → x'.phase.wrote = true
  live : x.phase.wrote = true → x'.phase.live = true → x.phase.live = true
  held : x.phase.wrote = true → x'.held now = true → x.held now = true

theorem Spent.follows {x x' : Writer} (spent : Spent now x) (follows : Follows now x x') :
    Spent now x' :=
  ⟨follows.wrote spent.1, fun both =>
    spent.2 ⟨follows.live spent.1 both.1, follows.held spent.1 both.2⟩⟩

/-- And what it has yet to read is the same. -/
structure Quiet (now : Nat) (x x' : Writer) : Prop extends Follows now x x' where
  due : ∀ due, x'.phase.due = some due → x.phase.due = some due
  forgetting : ∀ v due k, x'.phase = .forgetting v due k → x.phase = .forgetting v due k

theorem Quiet.of_phase {x x' : Writer} (phase : x'.phase = x.phase)
    (held : x'.held now = true → x.held now = true) : Quiet now x x' where
  absent is := phase.trans is
  wrote is := phase ▸ is
  live _ is := phase ▸ is
  held _ := held
  due _ is := phase ▸ is
  forgetting _ _ _ is := phase ▸ is

/-- The lock is given up. -/
theorem Quiet.of_dead {x x' : Writer} (dead : x'.phase.live = false) (wrote : x'.phase.wrote = true)
    (there : x.phase ≠ .absent) (held : x'.held now = true → x.held now = true) :
    Quiet now x x' where
  absent is := absurd is there
  wrote _ := wrote
  live _ live := by
    rw [dead] at live
    cases live
  held _ := held
  due due is := by
    rw [Phase.live_of_due is] at dead
    cases dead
  forgetting v due k is := by
    rw [is] at dead
    cases dead

theorem held_later {n : Nat} {x : Writer} (held : x.held (now + n) = true) : x.held now = true := by
  simp only [Writer.held, Bool.and_eq_true, decide_eq_true_eq] at held ⊢
  exact ⟨held.1, by omega⟩

namespace Kept
variable {clock : Nat → Int} {x : Writer}

theorem later (h : Kept lease slack now clock x) (n : Nat) : Kept lease slack (now + n) clock x where
  fresh := h.fresh
  begun := h.begun
  deadline := by
    have := h.deadline
    omega
  next next is := by
    have := h.next next is
    omega
  reads v due is := by
    obtain ⟨u, le, rfl⟩ := h.reads v due is
    exact ⟨u, by omega, rfl⟩
  sure := h.sure
  awaited := h.awaited
  firm live held := h.firm live (held_later held)

/-- A writer whose lease is out, or who gave it up, keeps nothing there. -/
theorem of_spent (h : Kept lease slack now clock x) {x' : Writer}
    (spent : ¬ (x'.phase.live = true ∧ x'.held now = true)) (wrote : x'.phase.wrote = true)
    (deadline : x'.deadline = x.deadline) (next : x'.renewal = x.renewal ∨ x'.renewal = none)
    (reads : ∀ v due, (x'.phase = .looking v due ∨ ∃ k, x'.phase = .forgetting v due k) →
      ∃ u ≤ now, v = clock u)
    (sure : x'.sure = true → x'.file ≠ none)
    (awaited : ∀ p, x'.put = some p → x'.phase = .writing ∨ x'.renewal ≠ none) :
    Kept lease slack now clock x' where
  fresh not := by
    rw [wrote] at not
    cases not
  begun r since is := by
    rw [is] at wrote
    cases wrote
  deadline := deadline ▸ h.deadline
  next n is := by
    rcases next with next | next <;> rw [next] at is
    · exact h.next n is
    · cases is
  reads := reads
  sure := sure
  awaited := awaited
  firm live held := absurd ⟨live, held⟩ spent

/-- The same phase and deadline, with another file or another write. -/
theorem same (h : Kept lease slack now clock x) {x' : Writer} (phase : x'.phase = x.phase)
    (lost : x'.lost = x.lost) (deadline : x'.deadline = x.deadline)
    (wrote : x.phase.wrote = true) (next : x'.renewal = x.renewal ∨ x'.renewal = none)
    (sure : x'.sure = true → x'.file ≠ none)
    (awaited : ∀ p, x'.put = some p → x'.phase = .writing ∨ x'.renewal ≠ none)
    (firm : x.phase.live = true → x.held now = true → Firm lease slack clock x') :
    Kept lease slack now clock x' where
  fresh not := by
    rw [phase, wrote] at not
    cases not
  begun r since is := by
    rw [← phase, is] at wrote
    cases wrote
  deadline := deadline ▸ h.deadline
  next n is := by
    rcases next with next | next <;> rw [next] at is
    · exact h.next n is
    · cases is
  reads v due is := h.reads v due (phase ▸ is)
  sure := sure
  awaited := awaited
  firm live held := by
    rw [phase] at live
    rw [Writer.held, lost, deadline] at held
    exact firm live held

theorem wrote_of_put (h : Kept lease slack now clock x) {p : Put} (put : x.put = some p) :
    x.phase.wrote = true := by
  cases wrote : x.phase.wrote with
  | true => rfl
  | false =>
      rw [(h.fresh wrote).2.1] at put
      cases put

theorem wrote_of_file (h : Kept lease slack now clock x) {f : File} (file : x.file = some f) :
    x.phase.wrote = true := by
  cases wrote : x.phase.wrote with
  | true => rfl
  | false =>
      rw [(h.fresh wrote).1] at file
      cases file

theorem refusable (h : Kept lease slack now clock x) (phase : x.phase ≠ .writing) :
    x.put = none ∨ x.renewal ≠ none := by
  cases put : x.put with
  | none => exact Or.inl rfl
  | some p => exact Or.inr ((h.awaited p put).resolve_left phase)

/-- A writer goes on to another phase, with the same file. -/
theorem goOn (h : Kept lease slack now clock x) {phase : Phase} (wrote : phase.wrote = true)
    (there : x.phase ≠ .writing) (live : phase.live = true → x.phase.live = true)
    (reads : ∀ v due, (phase = .looking v due ∨ ∃ k, phase = .forgetting v due k) →
      ∃ u ≤ now, v = clock u) : Kept lease slack now clock { x with phase } where
  fresh not := by
    rw [show phase.wrote = false from not] at wrote
    cases wrote
  begun r since is := by
    rw [show phase = .begun r since from is] at wrote
    cases wrote
  deadline := h.deadline
  next := h.next
  reads := reads
  sure := h.sure
  awaited p is := Or.inr ((h.awaited p is).resolve_left there)
  firm isLive held := by
    have firm := h.firm (live isLive) held
    exact ⟨firm.deletes, firm.file, firm.put, fun _ => firm.sure there⟩

end Kept

theorem check_eq (now : Nat) (x : Writer) :
    (x.check now).phase = x.phase ∧ (x.check now).held now = x.held now := by
  unfold Writer.check
  split
  next => exact ⟨rfl, rfl⟩
  next out =>
    rw [Bool.not_eq_true] at out
    rw [out]
    exact ⟨rfl, rfl⟩

section Acts
variable {clock : Nat → Int} {x : Writer}

theorem kept_lost (h : Kept lease slack now clock x) (wrote : x.phase.wrote = true)
    (renewal : Option Nat) (put : x.put = none) (same : renewal = x.renewal ∨ renewal = none) :
    Kept lease slack now clock { x with renewal, lost := true } :=
  h.of_spent (fun both => by cases both.2) wrote rfl same h.reads h.sure fun p is => by
    rw [show x.put = some p from is] at put
    cases put

theorem kept_check (h : Kept lease slack now clock x) (wrote : x.phase.wrote = true) :
    Kept lease slack now clock (x.check now) := by
  unfold Writer.check
  split
  next => exact h
  next => exact h.of_spent (fun both => by cases both.2) wrote rfl (Or.inl rfl) h.reads h.sure h.awaited

theorem kept_refuse (h : Kept lease slack now clock x) (renewal : x.put = none ∨ x.renewal ≠ none) :
    Kept lease slack now clock x.refuse := by
  refine h.of_spent (fun both => by cases both.1) rfl rfl (Or.inl rfl) (fun v due is => ?_) h.sure
    fun p is => ?_
  · rcases is with is | ⟨k, is⟩ <;> cases is
  · rcases renewal with none | some
    · rw [show x.put = some p from is] at none
      cases none
    · exact Or.inr some

theorem kept_write (h : Kept lease slack now clock x) :
    Kept lease slack now clock (x.write lease slack now (clock now)) := by
  unfold Writer.write
  split
  next record since phase =>
    obtain ⟨file, -, deletes, renewal⟩ := h.fresh (by rw [phase]; rfl)
    split
    next soon =>
      refine ⟨nofun, nofun, Nat.le_refl _, h.next, fun v due is => ?_, h.sure, fun _ _ => Or.inl rfl,
        fun _ _ => ?_⟩
      · rcases is with is | ⟨k, is⟩ <;> cases is
      refine ⟨deletes, fun r is => ?_, fun p is => ?_, fun other => absurd rfl other⟩
      · rw [show x.file = some (.lock r) from is] at file
        cases file
      · cases is
        have covers : Covers lease slack clock (now + lease) record :=
          ⟨since, by omega, h.begun record since phase⟩
        refine ⟨covers, fun next is => ?_, nofun⟩
        rw [show x.renewal = some next from is] at renewal
        cases renewal
    next => exact h
  all_goals try exact h
  all_goals
    next phase =>
    split
    next renewing =>
      refine h.same rfl rfl rfl (by rw [phase]; rfl) (Or.inl rfl) h.sure
        (fun _ _ => Or.inr (Option.isSome_iff_ne_none.mp renewing.1)) fun live held => ?_
      have firm := h.firm live held
      have covers {deadline : Nat} (le : deadline ≤ now + lease) : Covers lease slack clock deadline
          { operation := x.operation, expiresAt := clock now + lease } :=
        ⟨now, by omega, Int.le_refl _⟩
      refine ⟨firm.deletes, firm.file, fun p is => ?_, firm.sure⟩
      cases is
      exact ⟨covers h.deadline, fun next is => covers (h.next next is), nofun⟩
    next => exact h

theorem kept_land (h : Kept lease slack now clock x) : Kept lease slack now clock x.land := by
  unfold Writer.land
  split
  next record put =>
    refine h.same rfl rfl rfl (h.wrote_of_put put) (Or.inl rfl) (fun _ => nofun)
      (fun _ _ => h.awaited _ put) fun live held => ?_
    have firm := h.firm live held
    obtain ⟨covers, next, -⟩ := firm.put _ put
    refine ⟨firm.deletes, fun r is => ?_, fun p is => ?_, firm.sure⟩
    · cases is
      exact covers
    · cases is
      exact ⟨covers, next, fun _ => rfl⟩
  next => exact h

theorem kept_tear (h : Kept lease slack now clock x) : Kept lease slack now clock x.tear := by
  unfold Writer.tear
  split
  next record put =>
    refine h.same rfl rfl rfl (h.wrote_of_put put) (Or.inl rfl) (fun _ => nofun) h.awaited
      fun live held => ?_
    have firm := h.firm live held
    obtain ⟨covers, next, -⟩ := firm.put _ put
    refine ⟨firm.deletes, nofun, fun p is => ?_, firm.sure⟩
    rw [show x.put = some p from is] at put
    cases put
    exact ⟨covers, next, nofun⟩
  next => exact h

theorem kept_erase (h : Kept lease slack now clock x) : Kept lease slack now clock x.erase := by
  unfold Writer.erase
  split
  next => exact h
  next some =>
    have wrote : x.phase.wrote = true := by
      cases wrote : x.phase.wrote with
      | true => rfl
      | false => exact absurd (h.fresh wrote).2.2.1 some
    refine h.same rfl rfl rfl wrote (Or.inl rfl) nofun h.awaited fun live held => ?_
    exact absurd (h.firm live held).deletes some

/-- The renewal that a write was for: its record covers the deadline that it asked for. -/
theorem kept_renewed {r : LockRecord} (h : Kept lease slack now clock x) (put : x.put = none)
    (wrote : x.phase.wrote = true)
    (covers : x.phase.live = true → x.held now = true → x.file = some (.lock r) ∧
      ∀ next, x.renewal = some next → Covers lease slack clock next r) :
    Kept lease slack now clock (x.renewed now) := by
  unfold Writer.renewed
  split
  next => exact h
  next next renewal =>
    split
    next held =>
      refine ⟨fun not => ?_, h.begun, Nat.max_le.mpr ⟨h.deadline, h.next next renewal⟩, nofun, h.reads,
        h.sure, fun p is => ?_, fun live _ => ?_⟩
      · rw [show x.phase.wrote = false from not] at wrote
        cases wrote
      · rw [show x.put = some p from is] at put
        cases put
      · have firm := h.firm live held
        obtain ⟨file, asked⟩ := covers live held
        have both := (firm.file r file).max (asked next renewal)
        refine ⟨firm.deletes, fun r' is => ?_, fun p is => ?_, firm.sure⟩
        · rw [show x.file = some (.lock r') from is] at file
          cases file
          exact both
        · rw [show x.put = some p from is] at put
          cases put
    next => exact kept_lost h wrote none put (Or.inr rfl)

theorem kept_resolved (h : Kept lease slack now clock x) {r : LockRecord}
    (put : x.put = some ⟨r, true⟩) : Kept lease slack now clock x.resolved := by
  refine h.same rfl rfl rfl (h.wrote_of_put put) (Or.inl rfl) (fun sure => ?_) nofun
    fun live held => ?_
  · rcases Bool.or_eq_true_iff.mp sure with sure | there
    · exact h.sure sure
    · exact Option.isSome_iff_ne_none.mp there
  · have firm := h.firm live held
    refine ⟨firm.deletes, firm.file, nofun, fun _ => ?_⟩
    rw [Writer.resolved, (firm.put _ put).2.2 rfl]
    exact Bool.or_true _

theorem kept_resolve (h : Kept lease slack now clock x) :
    Kept lease slack now clock (x.resolve now) := by
  unfold Writer.resolve
  split
  next record put =>
    have kept := kept_resolved h put
    split
    next writing =>
      refine ⟨nofun, nofun, kept.deadline, kept.next, fun v due is => ?_, kept.sure, nofun,
        fun _ held => ?_⟩
      · rcases is with is | ⟨k, is⟩ <;> cases is
      · have firm := h.firm (by rw [writing]; rfl) held
        refine ⟨firm.deletes, firm.file, nofun, fun _ => ?_⟩
        rw [Writer.resolved, (firm.put _ put).2.2 rfl]
        exact Bool.or_true _
    next =>
      refine kept_renewed (r := record) kept rfl (h.wrote_of_put put) fun live held => ?_
      obtain ⟨-, next, file⟩ := (h.firm live held).put _ put
      exact ⟨file rfl, next⟩
  next => exact h

theorem kept_reject (h : Kept lease slack now clock x) : Kept lease slack now clock x.reject := by
  unfold Writer.reject
  split
  next => exact h
  next put is =>
    have wrote := h.wrote_of_put is
    have kept : Kept lease slack now clock (x.rejected put) := by
      refine h.same rfl rfl rfl wrote (Or.inl rfl) h.sure nofun fun live held => ?_
      have firm := h.firm live held
      exact ⟨firm.deletes, firm.file, nofun, firm.sure⟩
    split
    next => exact kept_refuse kept (Or.inl rfl)
    next =>
      refine kept.same rfl rfl rfl wrote (Or.inr rfl) kept.sure nofun fun live held => ?_
      have firm := kept.firm live held
      exact ⟨firm.deletes, firm.file, nofun, firm.sure⟩

theorem kept_renew (h : Kept lease slack now clock x) :
    Kept lease slack now clock (x.renew lease now) := by
  unfold Writer.renew
  split
  next ready =>
    obtain ⟨phase, renewal⟩ := ready
    have put : x.put = none := by
      cases put : x.put with
      | none => rfl
      | some p =>
          rcases h.awaited p put with writing | renewing
          · rw [phase] at writing
            cases writing
          · exact absurd renewal renewing
    split
    next =>
      refine ⟨fun not => absurd (show x.phase.wrote = false from not) (by rw [phase]; exact nofun), h.begun, h.deadline, ?_, h.reads, h.sure, ?_, ?_⟩
      · rintro next ⟨⟩
        exact Nat.le_refl _
      · exact fun _ _ => Or.inr nofun
      · intro live held
        have firm := h.firm live held
        refine ⟨firm.deletes, firm.file, fun p is => ?_, firm.sure⟩
        rw [show x.put = some p from is] at put
        cases put
    next => exact kept_lost h (by rw [phase]; rfl) x.renewal put (Or.inl rfl)
  next => exact h

theorem renewed_eq (now : Nat) (x : Writer) :
    (x.renewed now).phase = x.phase ∧ ((x.renewed now).held now = true → x.held now = true) := by
  unfold Writer.renewed
  split
  next => exact ⟨rfl, id⟩
  next =>
    split
    next held => exact ⟨rfl, fun _ => held⟩
    next => exact ⟨rfl, nofun⟩

theorem quiet_refuse (there : x.phase ≠ .absent) : Quiet now x x.refuse :=
  .of_dead rfl rfl there id

theorem quiet_write (wall : Int) : Quiet now x (x.write lease slack now wall) := by
  unfold Writer.write
  split
  next record since phase =>
    have begun : x.phase.wrote ≠ true := by
      rw [phase]
      exact nofun
    split
    next =>
      refine ⟨⟨fun is => ?_, fun _ => rfl, fun wrote => absurd wrote begun,
        fun wrote => absurd wrote begun⟩, nofun, nofun⟩
      rw [phase] at is
      cases is
    next => exact .of_phase rfl id
  all_goals try exact .of_phase rfl id
  all_goals split <;> exact .of_phase rfl id

theorem quiet_land : Quiet now x x.land := by
  unfold Writer.land
  split <;> exact .of_phase rfl id

theorem quiet_tear : Quiet now x x.tear := by
  unfold Writer.tear
  split <;> exact .of_phase rfl id

theorem quiet_resolve : Quiet now x (x.resolve now) := by
  unfold Writer.resolve
  split
  next =>
    split
    next writing =>
      refine ⟨⟨fun is => ?_, fun _ => rfl, fun _ _ => ?_, fun _ => id⟩, nofun, nofun⟩
      · rw [writing] at is
        cases is
      · rw [writing]
        rfl
    next =>
      obtain ⟨phase, held⟩ := renewed_eq now x.resolved
      exact .of_phase phase held
  next => exact .of_phase rfl id

theorem quiet_reject : Quiet now x x.reject := by
  unfold Writer.reject
  split
  next => exact .of_phase rfl id
  next =>
    split
    next writing =>
      refine .of_dead rfl rfl (fun is => ?_) id
      rw [writing] at is
      cases is
    next => exact .of_phase rfl id

theorem quiet_landLate (k : Nat) : Quiet now x (x.landLate k) := by
  unfold Writer.landLate
  split <;> exact .of_phase rfl id

theorem quiet_erase : Quiet now x x.erase := by
  unfold Writer.erase
  split <;> exact .of_phase rfl id

theorem quiet_check : Quiet now x (x.check now) := by
  obtain ⟨phase, held⟩ := check_eq now x
  exact .of_phase phase (held ▸ id)

theorem quiet_renew : Quiet now x (x.renew lease now) := by
  unfold Writer.renew
  split
  next =>
    split
    next => exact .of_phase rfl id
    next => exact .of_phase rfl nofun
  next => exact .of_phase rfl id

theorem quiet_fail : Quiet now x x.fail := by
  unfold Writer.fail
  split
  case h_4 => exact .of_phase rfl id
  all_goals
    next phase =>
    refine quiet_refuse fun is => ?_
    rw [phase] at is
    cases is

end Acts

end NxgtData.Backup.Lock
