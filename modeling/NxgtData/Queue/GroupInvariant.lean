import NxgtData.Queue.Placement
import NxgtData.Queue.RoundRobin

/-!
The group keys follow the board: each group's zset mirrors the ready jobs of
that group, and each counter counts its active ones. A move takes a job out of
one zset, rewrites its hash while it is in none, and puts it into another; the
three parts are proved apart.
-/
namespace NxgtData.Queue
open GroupKeys

structure Grouped (m : GroupArgs) (skip : String → Prop) (b : Board) : Prop where
  mirror : ∀ g id, id ∈ b.groups.ready g ↔ id ∈ b.ready ∧ b.groupOf id = g
  count : ∀ g, g ≠ "" →
    (b.groups.active g).getD 0 = b.active.members.countP fun id => b.groupOf id = g
  turns : RoundRobin m skip b.groups

theorem Grouped.empty (m : GroupArgs) : Grouped m (fun _ => False) ({} : Board) where
  mirror := by intro g id; simp
  count := by intro g _; rfl
  turns := ⟨.nil, by simp, rfl, by simp, by rintro g - ⟨-, id, mem⟩; simp at mem⟩

theorem Board.groupOf_put (b : Board) (id : String) (h : Option JobHash) :
    (b.put id h).groupOf id = hashGroup h := by
  simp [groupOf, hmget, hashGroup]

theorem Board.groupOf_put_ne {b : Board} {id id' : String} {h : Option JobHash} (ne : id' ≠ id) :
    (b.put id h).groupOf id' = b.groupOf id' := by
  simp [groupOf, hmget, ne]

theorem Board.groupOf_congr {b b' : Board} (job : b'.job = b.job) (id : String) :
    b'.groupOf id = b.groupOf id := by simp only [groupOf, hmget, job]

namespace Grouped
variable {m : GroupArgs} {skip : String → Prop} {b : Board}

/-- The mirrors and the counters depend on nothing but these. -/
theorem congr {b' : Board} {skip' : String → Prop} (hb : Grouped m skip b)
    (ready : b'.ready = b.ready) (active : b'.active = b.active)
    (groupOf : ∀ id, b'.groupOf id = b.groupOf id) (mirrors : b'.groups.ready = b.groups.ready)
    (counters : b'.groups.active = b.groups.active) (turns : RoundRobin m skip' b'.groups) :
    Grouped m skip' b' where
  mirror := by simpa only [ready, groupOf, mirrors] using hb.mirror
  count := by simpa only [active, groupOf, counters] using hb.count
  turns := turns

theorem readyRem (hm : m.grouped = true) (hb : Grouped m skip b) (id : String) :
    Grouped m skip (b.readyRem m id (b.groupOf id)) where
  mirror := by
    intro g id'
    have keys : (b.readyRem m id (b.groupOf id)).groups.ready =
        Function.update b.groups.ready (b.groupOf id) ((b.groups.ready (b.groupOf id)).rem id) := by
      simp [Board.readyRem, GroupKeys.readyRem, hm]
    change id' ∈ _ ↔ id' ∈ b.ready.rem id ∧ b.groupOf id' = g
    rw [keys, Function.update_apply, SortedSet.mem_rem]
    split
    next eq =>
      subst eq
      rw [SortedSet.mem_rem, hb.mirror]
      tauto
    next ne =>
      rw [hb.mirror]
      constructor
      · rintro ⟨mem, eq⟩
        refine ⟨⟨mem, ?_⟩, eq⟩
        rintro rfl
        exact ne eq.symm
      · rintro ⟨⟨mem, -⟩, eq⟩
        exact ⟨mem, eq⟩
  count := by
    intro g named
    have keys : (b.groups.readyRem m id (b.groupOf id)).active = b.groups.active := by
      unfold GroupKeys.readyRem; split <;> rfl
    change ((b.groups.readyRem m id (b.groupOf id)).active g).getD 0 = _
    rw [keys]
    exact hb.count g named
  turns := hb.turns.readyRem id _

theorem activeRem (hm : m.grouped = true) (hb : Grouped m skip b) (id : String) :
    Grouped m skip (b.activeRem m id (b.groupOf id)).2 := by
  unfold Board.activeRem
  split
  next mem =>
    refine ⟨?_, ?_, hb.turns.slotFreed hm _⟩
    · intro g id'
      rw [slotFreed_ready]
      exact hb.mirror g id'
    · intro g named
      have counted := SortedSet.countP_rem mem fun id' => decide (b.groupOf id' = g)
      rw [slotFreed_active hm, hb.count g named]
      change _ = (b.active.rem id).members.countP fun id' => b.groupOf id' = g
      by_cases same : b.groupOf id = g
      · subst same
        simp only [decide_true, ite_true] at counted
        simp only [ne_eq, named, not_false_eq_true, and_self, ite_true, hb.count _ named]
        omega
      · simp only [decide_eq_true_eq, same, ite_false, Nat.add_zero] at counted
        simpa [Ne.symm same] using counted
  next => exact hb

theorem leave (hm : m.grouped = true) (hb : Grouped m skip b) (id : String) :
    Grouped m skip (b.leave m id) := by
  unfold Board.leave
  split
  · exact hb
  · exact hb.readyRem hm id
  · exact ⟨hb.mirror, hb.count, hb.turns⟩
  · exact hb.activeRem hm id
  · exact ⟨hb.mirror, hb.count, hb.turns⟩
  · exact ⟨hb.mirror, hb.count, hb.turns⟩

/-- A job in no zset that the groups follow may change its hash freely. -/
theorem put (hb : Grouped m skip b) {id : String} (h : Option JobHash) (idle : id ∉ b.ready)
    (still : id ∉ b.active) : Grouped m skip (b.put id h) where
  mirror := by
    intro g id'
    rw [Board.put_groups, hb.mirror]
    change _ ↔ id' ∈ b.ready ∧ _
    by_cases eq : id' = id
    · subst eq; simp [idle]
    · rw [Board.groupOf_put_ne eq]
  count := by
    intro g named
    rw [Board.put_groups, hb.count g named]
    refine List.countP_congr fun id' mem => ?_
    have ne : id' ≠ id := by
      rintro rfl
      exact still mem
    rw [Board.groupOf_put_ne ne]
  turns := hb.turns

theorem readyAdd (hm : m.grouped = true) (hb : Grouped m skip b) (id : String) (score : Nat) :
    Grouped m skip (b.readyAdd m id score (b.groupOf id)).2 where
  mirror := by
    intro g id'
    change id' ∈ (b.groups.readyAdd m id score (b.groupOf id)).2.ready g ↔
      id' ∈ b.ready.add score id ∧ b.groupOf id' = g
    rw [readyAdd_ready hm, Function.update_apply, SortedSet.mem_add]
    split
    next eq =>
      subst eq
      rw [SortedSet.mem_add, hb.mirror]
      constructor
      · rintro (rfl | ⟨mem, eq⟩)
        · exact ⟨Or.inl rfl, rfl⟩
        · exact ⟨Or.inr mem, eq⟩
      · rintro ⟨rfl | mem, eq⟩
        · exact Or.inl rfl
        · exact Or.inr ⟨mem, eq⟩
    next ne =>
      rw [hb.mirror]
      constructor
      · rintro ⟨mem, eq⟩
        exact ⟨Or.inr mem, eq⟩
      · rintro ⟨rfl | mem, eq⟩
        · exact absurd eq.symm ne
        · exact ⟨mem, eq⟩
  count := by
    intro g named
    change ((b.groups.readyAdd m id score (b.groupOf id)).2.active g).getD 0 = _
    rw [readyAdd_active]
    exact hb.count g named
  turns := hb.turns.readyAdd hm id _ score

theorem activeAdd (hm : m.grouped = true) (hb : Grouped m skip b) {id : String} (score : Nat)
    (still : id ∉ b.active) (slot : b.groups.hasSlot m (b.groupOf id) = true) :
    Grouped m skip { b with
      active := b.active.add score id, groups := b.groups.slotTaken m (b.groupOf id) } where
  mirror := by
    intro g id'
    rw [slotTaken_ready]
    exact hb.mirror g id'
  count := by
    intro g named
    have counted := SortedSet.countP_add b.active score still fun id' => decide (b.groupOf id' = g)
    rw [slotTaken_active hm, hb.count g named]
    change _ = (b.active.add score id).members.countP fun id' => b.groupOf id' = g
    rw [counted]
    by_cases same : g = b.groupOf id
    · subst same; simp [named]
    · simp [same, Ne.symm same]
  turns := hb.turns.slotTaken slot

theorem enter (hm : m.grouped = true) (hb : Grouped m skip b) {id : String} (score : Nat)
    (still : id ∉ b.active)
    (slot : b.stateOf id = some .active → b.groups.hasSlot m (b.groupOf id) = true) :
    Grouped m skip (b.enter m id (b.groupOf id) score) := by
  unfold Board.enter
  split
  next => exact hb
  next => exact hb.readyAdd hm id score
  next => exact ⟨hb.mirror, hb.count, hb.turns⟩
  next state => exact hb.activeAdd hm score still (slot state)
  next => exact ⟨hb.mirror, hb.count, hb.turns⟩
  next => exact ⟨hb.mirror, hb.count, hb.turns⟩

theorem shift (hm : m.grouped = true) (placed : Placed b) (hb : Grouped m skip b) {id : String}
    {h : Option JobHash} (score : Nat) (ev : List Event)
    (slot : h.bind JobHash.state = some .active →
      (b.leave m id).groups.hasSlot m (hashGroup h) = true) :
    Grouped m skip (b.shift m id (hashGroup h) h score ev) := by
  have idle : id ∉ (b.leave m id).ready := fun mem =>
    ((placed.mem_leave id id .waiting).mp mem).2 rfl
  have still : id ∉ (b.leave m id).active := fun mem =>
    ((placed.mem_leave id id .active).mp mem).2 rfl
  have entered := ((hb.leave hm id).put h idle still).enter hm score still
    (by rw [Board.stateOf_put, Board.groupOf_put]; exact slot)
  rw [Board.groupOf_put] at entered
  exact ⟨entered.mirror, entered.count, entered.turns⟩

theorem edit (hb : Grouped m skip b) {id : String} {h h' : JobHash} (was : b.job id = some h)
    (group : h'.group = h.group) : Grouped m skip (b.put id (some h')) := by
  have same : ∀ id', (b.put id (some h')).groupOf id' = b.groupOf id' := by
    intro id'
    by_cases eq : id' = id
    · subst eq
      rw [Board.groupOf_put, Board.groupOf_of_job was]
      simp [hashGroup, JobHash.groupName, group]
    · exact Board.groupOf_put_ne eq
  exact hb.congr rfl rfl same rfl rfl hb.turns

theorem touch (hb : Grouped m skip b) {id : String} (score : Nat) (mem : id ∈ b.active) :
    Grouped m skip { b with active := b.active.add score id } where
  mirror := hb.mirror
  count := by
    intro g named
    exact (hb.count g named).trans (SortedSet.countP_add_of_mem score mem _).symm
  turns := hb.turns

/-- The group in hand goes back when it is claimable, so none is left out. -/
theorem requeue {g : String} (hb : Grouped m (fun x => x = g) b) :
    Grouped m (fun _ => False) (b.requeue m g) := by
  unfold Board.requeue
  split
  next =>
    refine hb.congr rfl rfl (Board.groupOf_congr rfl) (by simp) (by simp)
      ((hb.turns.rrPush g).weaken ?_)
    rintro x ⟨eq, ne⟩
    exact ne eq
  next idle =>
    refine ⟨hb.mirror, hb.count, hb.turns.nodup, hb.turns.listed, hb.turns.default,
      hb.turns.capped, fun x _ claimable => ?_⟩
    by_cases eq : x = g
    · subst eq
      obtain ⟨slot, jobs⟩ := claimable
      exact absurd (by simp [slot, SortedSet.card_pos_iff.mpr jobs]) idle
    · exact hb.turns.queued x eq claimable

theorem take (hb : Grouped m (fun _ => False) b) {g : String} {k : GroupKeys}
    (taken : b.groups.rrTake = some (g, k)) :
    Grouped m (fun x => x = g) { b with groups := k } := by
  obtain ⟨turns, ready, active, -, -⟩ := hb.turns.take taken
  refine hb.congr rfl rfl (Board.groupOf_congr rfl) ready active (turns.weaken ?_)
  rintro x (none | eq)
  · exact none.elim
  · exact eq

theorem drop (hb : Grouped m (fun _ => False) b) {g : String} {k : GroupKeys}
    (taken : b.groups.rrTake = some (g, k))
    (idle : k.hasSlot m g = false ∨ ∀ id, id ∉ k.ready g) :
    Grouped m (fun _ => False) { b with groups := k } := by
  have held := hb.take taken
  refine ⟨held.mirror, held.count, held.turns.nodup, held.turns.listed, held.turns.default,
    held.turns.capped, fun x _ claimable => ?_⟩
  by_cases eq : x = g
  · subst eq
    obtain ⟨slot, job, mem⟩ := claimable
    rcases idle with full | none
    · exact absurd (full.symm.trans slot) (by simp)
    · exact absurd mem (none job)
  · exact held.turns.queued x eq claimable

end Grouped

section Unmirrored
variable {m : GroupArgs} {b : Board} {id : String}

/-- What the mirrors say of one job outside `ready`. -/
def Board.Unmirrored (m : GroupArgs) (id : String) (b : Board) : Prop :=
  id ∉ b.ready → m.grouped = true → ∀ g, id ∉ b.groups.ready g

theorem Grouped.unmirrored {skip : String → Prop} (hb : m.grouped = true → Grouped m skip b) :
    b.Unmirrored m id :=
  fun idle hm g mem => idle (((hb hm).mirror g id).mp mem).1

theorem Board.readyRem_idle (hb : b.Unmirrored m id) (idle : id ∉ b.ready) (g : String) :
    b.readyRem m id g = b := by
  have groups : b.groups.readyRem m id g = b.groups := by
    unfold GroupKeys.readyRem
    split
    next hm => rw [SortedSet.rem_of_notMem (hb idle hm g), Function.update_eq_self]
    next => rfl
  unfold Board.readyRem
  rw [groups, SortedSet.rem_of_notMem idle]

end Unmirrored

/-- A job becomes active by a start, or was active before. -/
theorem Change.active {a : Act} {o : Option JobHash} {ev : List Event} {h' : JobHash}
    (change : Change a o ev (some h')) (active : h'.state = some .active) :
    a.isStart = true ∨ o.bind JobHash.state = some .active := by
  cases change with
  | create state => rcases state with s | s <;> rw [s] at active <;> cases active
  | start => exact Or.inl rfl
  | renew | progress | begun | commit | drop => exact Or.inr active
  | debounce | promote | reclaim | lapse | refuse | complete | retryLater | failFinal | release
  | retry => cases active

/-- The board's invariant between moves. -/
structure Sane (m : GroupArgs) (b : Board) : Prop where
  placed : Placed b
  grouped : m.grouped = true → Grouped m (fun _ => False) b

namespace Sane
variable {m : GroupArgs} {b b' : Board}

theorem empty (m : GroupArgs) : Sane m ({} : Board) := ⟨.empty, fun _ => .empty m⟩

theorem move {a : Act} (hb : Sane m b) (h : Move m b a b') : Sane m b' := by
  refine ⟨hb.placed.move h, fun hm => ?_⟩
  have grouped := hb.grouped hm
  cases h with
  | @shift _ events o score change ungrouped idle =>
      refine grouped.shift hm hb.placed score events fun active => ?_
      obtain ⟨h', rfl, state⟩ := Option.bind_eq_some_iff.mp active
      rcases change.active state with start | was
      · exact absurd (ungrouped start) (by simp [hm])
      · exact absurd was (idle active)
  | @serve _ events o g rest k score _ taken list slot head change kind =>
      have held := grouped.take taken
      have placed := hb.placed.groups k
      have mem := (grouped.mirror g a.id).mp head
      obtain ⟨h, was, state⟩ := hb.placed.job_of_mem (s := .waiting) mem.1
      have groupOf : h.groupName = g := by rw [← mem.2, Board.groupOf_of_job was]
      have leave : (({ b with groups := k } : Board).leave m a.id).groups.hasSlot m g = true := by
        have state' : ({ b with groups := k } : Board).stateOf a.id = some .waiting :=
          (Board.stateOf_of_job was).trans state
        simp only [Board.leave, state', Board.readyRem, GroupKeys.readyRem, hm, ite_true]
        exact slot
      refine Grouped.requeue (held.shift hm placed score events fun active => ?_)
      rw [was] at change
      cases change with
      | start =>
          change GroupKeys.hasSlot m h.groupName _ = true
          rw [groupOf]
          exact leave
      | refuse => cases active
      | debounce | promote | reclaim | lapse | complete | vanish | retryLater | failFinal
      | release | renew | progress | begun | commit | cancel | retry | remove | trim | drop =>
          simp [Act.isStart] at kind
  | drop _ taken idle => exact grouped.drop taken idle
  | edit change was same => exact grouped.edit was same.2.2
  | touch score was holds mem => exact grouped.touch score mem

theorem path {as : List Act} (h : Path (Move m) b as b') (hb : Sane m b) : Sane m b' :=
  h.invariant (fun hs hm => hs.move hm) hb

/-- A loop over jobs of one zset: each turn moves its own job, so the jobs still
to come are where the range found them. -/
theorem foldl {σ : Type} (board : σ → Board) {f : σ → String → σ} {R : σ → σ → Prop}
    {I : σ → Prop} (s : JobState) (refl : ∀ x, R x x)
    (trans : ∀ {x y z}, R x y → R y z → R x z)
    (turn : ∀ x id, Sane m (board x) → I x → id ∈ (board x).place s →
      (∃ a, a.id = id ∧ Move m (board x) a (board (f x id))) ∧ R x (f x id) ∧ I (f x id))
    (ids : List String) (nodup : ids.Nodup) {x : σ} (hb : Sane m (board x)) (hI : I x)
    (mem : ∀ id ∈ ids, id ∈ (board x).place s) : R x (ids.foldl f x) ∧ I (ids.foldl f x) := by
  induction ids generalizing x with
  | nil => exact ⟨refl x, hI⟩
  | cons id ids ih =>
      obtain ⟨fresh, rest⟩ := List.nodup_cons.mp nodup
      obtain ⟨⟨a, rfl, move⟩, moved, kept⟩ := turn x id hb hI (mem id List.mem_cons_self)
      have still : ∀ id' ∈ ids, id' ∈ (board (f x a.id)).place s := by
        intro id' later
        have ne : id' ≠ a.id := by
          rintro rfl
          exact fresh later
        exact (move.mem_of_ne hb.placed ne s).mpr (mem id' (List.mem_cons_of_mem _ later))
      obtain ⟨later, held⟩ := ih rest (hb.move move) kept still
      exact ⟨trans moved later, held⟩

end Sane
end NxgtData.Queue
