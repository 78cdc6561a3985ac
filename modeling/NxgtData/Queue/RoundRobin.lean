import NxgtData.Queue.Moves

/-!
The group keys on their own: the list and the set name the same groups, once
each, no counter passes the cap, and every group with ready jobs and a free slot
is listed, except for the groups in `skip`, which a turn of `pop_groups` has in
its hands. Each helper of `GROUP_FN` keeps this.
-/
namespace NxgtData.Queue

/-- A group with ready jobs and a free slot. -/
def GroupKeys.Claimable (m : GroupArgs) (g : String) (k : GroupKeys) : Prop :=
  k.hasSlot m g = true ∧ ∃ id, id ∈ k.ready g

structure RoundRobin (m : GroupArgs) (skip : String → Prop) (k : GroupKeys) : Prop where
  nodup : k.list.Nodup
  listed : ∀ g, g ∈ k.list ↔ g ∈ k.queued
  default : k.active "" = none
  capped : m.concurrency > 0 → ∀ g, (k.active g).getD 0 ≤ m.concurrency
  queued : ∀ g, ¬ skip g → k.Claimable m g → g ∈ k.queued

namespace GroupKeys
variable {m : GroupArgs}

@[simp] theorem rrPush_ready (k : GroupKeys) (g : String) : (k.rrPush g).ready = k.ready := by
  unfold rrPush; split <;> rfl

@[simp] theorem rrPush_active (k : GroupKeys) (g : String) : (k.rrPush g).active = k.active := by
  unfold rrPush; split <;> rfl

theorem mem_rrPush {k : GroupKeys} {g g' : String} :
    g' ∈ (k.rrPush g).queued ↔ g' = g ∨ g' ∈ k.queued := by
  unfold rrPush
  split
  next mem => simp only [iff_or_self]; rintro rfl; exact mem
  next => exact SortedSet.mem_add

/-- A push only ever appends. -/
theorem list_rrPush (k : GroupKeys) (g : String) : k.list <+: (k.rrPush g).list := by
  unfold rrPush
  split
  · exact List.prefix_rfl
  · exact List.prefix_append _ _

theorem hasSlot_congr {k k' : GroupKeys} {g : String} (h : k'.active g = k.active g) :
    k'.hasSlot m g = k.hasSlot m g := by simp only [hasSlot, h]

@[simp] theorem hasSlot_rrPush (k : GroupKeys) (g g' : String) :
    (k.rrPush g).hasSlot m g' = k.hasSlot m g' := hasSlot_congr (by simp)

@[simp] theorem uncount_ready (k : GroupKeys) (g : String) : (k.uncount g).ready = k.ready := by
  unfold uncount; split; rfl; dsimp only; split; rfl; split <;> rfl

@[simp] theorem uncount_list (k : GroupKeys) (g : String) : (k.uncount g).list = k.list := by
  unfold uncount; split; rfl; dsimp only; split; rfl; split <;> rfl

@[simp] theorem uncount_queued (k : GroupKeys) (g : String) :
    (k.uncount g).queued = k.queued := by
  unfold uncount; split; rfl; dsimp only; split; rfl; split <;> rfl

/-- The counter of a named group loses one, and no other counter moves. -/
theorem uncount_active (k : GroupKeys) (g g' : String) :
    ((k.uncount g).active g').getD 0 =
      if g ≠ "" ∧ g' = g then (k.active g).getD 0 - 1 else (k.active g').getD 0 := by
  unfold uncount
  split
  next eq => simp [eq]
  next ne =>
    dsimp only
    split
    next more => by_cases same : g' = g <;> simp [ne, same]
    next less =>
      split
      next one => by_cases same : g' = g <;> simp [ne, same, one]
      next zero =>
        by_cases same : g' = g
        · subst same; simp [ne]; omega
        · simp [same]

theorem uncount_default (k : GroupKeys) (g : String) (h : k.active "" = none) :
    (k.uncount g).active "" = none := by
  unfold uncount
  split
  next => exact h
  next ne =>
    dsimp only
    split
    next => simpa [Function.update_apply, Ne.symm ne] using h
    next => split <;> simp [Function.update_apply, h]

theorem slotFreed_grouped (hm : m.grouped = true) (k : GroupKeys) (g : String) :
    (k.slotFreed m g).2 = k.uncount g ∨ (k.slotFreed m g).2 = (k.uncount g).rrPush g := by
  simp only [slotFreed, hm, Bool.not_true, Bool.false_eq_true, ite_false]
  split
  · exact Or.inl rfl
  · exact Or.inr rfl

@[simp] theorem slotFreed_ready (k : GroupKeys) (g : String) :
    (k.slotFreed m g).2.ready = k.ready := by
  unfold slotFreed; split; rfl; dsimp only; split <;> simp

theorem slotFreed_active (hm : m.grouped = true) (k : GroupKeys) (g g' : String) :
    ((k.slotFreed m g).2.active g').getD 0 =
      if g ≠ "" ∧ g' = g then (k.active g).getD 0 - 1 else (k.active g').getD 0 := by
  rcases slotFreed_grouped hm k g with h | h <;> rw [h]
  · exact uncount_active k g g'
  · rw [rrPush_active]; exact uncount_active k g g'

theorem readyAdd_ready (hm : m.grouped = true) (k : GroupKeys) (id g : String) (s : Nat) :
    (k.readyAdd m id s g).2.ready = Function.update k.ready g ((k.ready g).add s id) := by
  simp only [readyAdd, hm, Bool.not_true, Bool.false_eq_true, ite_false]
  split <;> simp

theorem readyAdd_active (k : GroupKeys) (id g : String) (s : Nat) :
    (k.readyAdd m id s g).2.active = k.active := by
  unfold readyAdd; split; rfl; dsimp only; split <;> simp

theorem slotTaken_active (hm : m.grouped = true) (k : GroupKeys) (g g' : String) :
    ((k.slotTaken m g).active g').getD 0 =
      (k.active g').getD 0 + if g ≠ "" ∧ g' = g then 1 else 0 := by
  unfold slotTaken
  by_cases default : g = ""
  · simp [default]
  · simp only [hm, ne_eq, default, not_false_eq_true, and_self, ite_true, true_and,
      Function.update_apply]
    by_cases same : g' = g <;> simp [same]

@[simp] theorem slotTaken_ready (k : GroupKeys) (g : String) :
    (k.slotTaken m g).ready = k.ready := by
  unfold slotTaken; split <;> rfl

theorem rrTake_eq_some {k k' : GroupKeys} {g : String} (h : k.rrTake = some (g, k')) :
    ∃ rest, k.list = g :: rest ∧ k' = { k with list := rest, queued := k.queued.rem g } := by
  unfold rrTake at h
  split at h
  next => cases h
  next g rest list =>
    cases h
    exact ⟨rest, list, rfl⟩

end GroupKeys

namespace RoundRobin
open GroupKeys
variable {m : GroupArgs} {skip : String → Prop} {k : GroupKeys}

theorem rrPush (h : RoundRobin m skip k) (g : String) :
    RoundRobin m (fun x => skip x ∧ x ≠ g) (k.rrPush g) where
  nodup := by
    unfold GroupKeys.rrPush
    split
    next => exact h.nodup
    next fresh =>
      refine List.nodup_append.mpr ⟨h.nodup, List.nodup_singleton g, ?_⟩
      rintro x hx y hy rfl
      rw [List.mem_singleton] at hy
      exact fresh (hy ▸ (h.listed x).mp hx)
  listed := by
    intro x
    rw [mem_rrPush, ← h.listed]
    unfold GroupKeys.rrPush
    split
    next mem =>
      simp only [iff_or_self]
      rintro rfl
      exact (h.listed x).mpr mem
    next => simp [or_comm]
  default := by rw [rrPush_active]; exact h.default
  capped := by rw [rrPush_active]; exact h.capped
  queued := by
    rintro x hx ⟨slot, jobs⟩
    rw [mem_rrPush]
    by_cases eq : x = g
    · exact Or.inl eq
    · rw [hasSlot_rrPush] at slot
      rw [rrPush_ready] at jobs
      exact Or.inr (h.queued x (fun s => hx ⟨s, eq⟩) ⟨slot, jobs⟩)

theorem weaken {skip' : String → Prop} (h : RoundRobin m skip k) (less : ∀ g, skip g → skip' g) :
    RoundRobin m skip' k :=
  ⟨h.nodup, h.listed, h.default, h.capped, fun g hg => h.queued g fun s => hg (less g s)⟩

/-- Fewer claimable groups outside `skip`, and the rest of the keys unchanged. -/
theorem shrink {k' : GroupKeys} {skip' : String → Prop} (h : RoundRobin m skip k)
    (list : k'.list = k.list) (queued : k'.queued = k.queued) (default : k'.active "" = none)
    (capped : m.concurrency > 0 → ∀ g, (k'.active g).getD 0 ≤ m.concurrency)
    (fewer : ∀ g, ¬ skip' g → k'.Claimable m g → ¬ skip g ∧ k.Claimable m g) :
    RoundRobin m skip' k' where
  nodup := by rw [list]; exact h.nodup
  listed := by rw [list, queued]; exact h.listed
  default := default
  capped := capped
  queued := by
    intro g hg claimable
    obtain ⟨keep, before⟩ := fewer g hg claimable
    rw [queued]
    exact h.queued g keep before

theorem readyRem (h : RoundRobin m skip k) (id g : String) :
    RoundRobin m skip (k.readyRem m id g) := by
  unfold GroupKeys.readyRem
  split
  next =>
    refine h.shrink rfl rfl h.default h.capped fun x hx claimable => ⟨hx, claimable.1, ?_⟩
    obtain ⟨job, mem⟩ := claimable.2
    refine ⟨job, ?_⟩
    simp only [Function.update_apply] at mem
    split at mem
    next eq => rw [eq]; exact (SortedSet.mem_rem.mp mem).1
    next => exact mem
  next => exact h

theorem readyAdd (hm : m.grouped = true) (h : RoundRobin m skip k) (id g : String) (s : Nat) :
    RoundRobin m skip (k.readyAdd m id s g).2 := by
  let k' : GroupKeys := { k with ready := Function.update k.ready g ((k.ready g).add s id) }
  -- Only `g` gains a job, so only `g` can have become claimable.
  have others : ∀ x, x ≠ g → k'.Claimable m x → k.Claimable m x := by
    rintro x ne ⟨slot, job, mem⟩
    exact ⟨slot, job, by simpa [k', Function.update_apply, ne] using mem⟩
  simp only [GroupKeys.readyAdd, hm, Bool.not_true, Bool.false_eq_true, ite_false]
  split
  next full =>
    refine h.shrink rfl rfl h.default h.capped fun x hx claimable => ⟨hx, others x ?_ claimable⟩
    rintro rfl
    have := claimable.1
    simp only [Bool.not_eq_eq_eq_not, Bool.not_true] at full
    exact absurd (full.symm.trans this) (by simp)
  next =>
    have opened : RoundRobin m (fun x => skip x ∨ x = g) k' :=
      h.shrink rfl rfl h.default h.capped fun x hx claimable =>
        ⟨fun s => hx (Or.inl s), others x (fun eq => hx (Or.inr eq)) claimable⟩
    refine (opened.rrPush g).weaken ?_
    rintro x ⟨s | eq, ne⟩
    · exact s
    · exact absurd eq ne

theorem uncount (h : RoundRobin m skip k) (g : String) :
    RoundRobin m (fun x => skip x ∨ x = g) (k.uncount g) := by
  have active := uncount_active k g
  refine h.shrink (by simp) (by simp) (uncount_default k g h.default) ?_ ?_
  · intro pos x
    rw [active]
    have := h.capped pos x
    have := h.capped pos g
    split <;> omega
  · rintro x hx ⟨slot, jobs⟩
    refine ⟨fun s => hx (Or.inl s), ?_, by simpa using jobs⟩
    have ne : x ≠ g := fun eq => hx (Or.inr eq)
    simpa [hasSlot, active, ne] using slot

theorem slotFreed (hm : m.grouped = true) (h : RoundRobin m skip k) (g : String) :
    RoundRobin m skip (k.slotFreed m g).2 := by
  have freed := h.uncount g
  simp only [GroupKeys.slotFreed, hm, Bool.not_true, Bool.false_eq_true, ite_false]
  split
  next idle =>
    refine ⟨freed.nodup, freed.listed, freed.default, freed.capped, fun x hx claimable => ?_⟩
    by_cases eq : x = g
    · subst eq
      obtain ⟨slot, jobs⟩ := claimable
      have some : 0 < ((k.uncount x).ready x).card := SortedSet.card_pos_iff.mpr jobs
      simp only [Bool.or_eq_true, decide_eq_true_eq, Bool.not_eq_eq_eq_not, Bool.not_true] at idle
      rcases idle with none | full
      · omega
      · exact absurd (full.symm.trans slot) (by simp)
    · exact freed.queued x (fun s => s.elim hx eq) claimable
  next =>
    refine (freed.rrPush g).weaken ?_
    rintro x ⟨s | eq, ne⟩
    · exact s
    · exact absurd eq ne

theorem slotTaken (h : RoundRobin m skip k) {g : String} (slot : k.hasSlot m g = true) :
    RoundRobin m skip (k.slotTaken m g) := by
  unfold GroupKeys.slotTaken
  split
  next named =>
    refine h.shrink rfl rfl ?_ ?_ ?_
    · simpa [Function.update_apply, Ne.symm named.2] using h.default
    · intro pos x
      simp only [Function.update_apply]
      split
      next =>
        have : ¬ m.concurrency = 0 := by omega
        simp only [hasSlot, named.2, this, or_self, ite_false, decide_eq_true_eq] at slot
        exact slot
      next => exact h.capped pos x
    · rintro x hx ⟨free, jobs⟩
      refine ⟨hx, ?_, jobs⟩
      simp only [hasSlot, Function.update_apply] at free ⊢
      split
      next => rfl
      next ne =>
        rw [if_neg ne] at free
        by_cases same : x = g
        · simp only [same, ite_true, Option.getD_some, decide_eq_true_eq] at free ⊢
          omega
        · simpa [same] using free
  next => exact h

theorem take (h : RoundRobin m skip k) {g : String} {k' : GroupKeys}
    (taken : k.rrTake = some (g, k')) :
    RoundRobin m (fun x => skip x ∨ x = g) k' ∧ k'.ready = k.ready ∧ k'.active = k.active ∧
      g ∈ k.list ∧ g ∉ k'.list := by
  obtain ⟨rest, list, rfl⟩ := rrTake_eq_some taken
  have nodup := h.nodup
  rw [list, List.nodup_cons] at nodup
  refine ⟨⟨nodup.2, fun x => ?_, h.default, h.capped, fun x hx claimable => ?_⟩, rfl, rfl,
    by simp [list], nodup.1⟩
  · rw [SortedSet.mem_rem, ← h.listed, list, List.mem_cons]
    constructor
    · intro mem
      refine ⟨Or.inr mem, ?_⟩
      rintro rfl
      exact nodup.1 mem
    · rintro ⟨rfl | mem, ne⟩
      · exact absurd rfl ne
      · exact mem
  · exact SortedSet.mem_rem.mpr
      ⟨h.queued x (fun s => hx (Or.inl s)) claimable, fun eq => hx (Or.inr eq)⟩

end RoundRobin
end NxgtData.Queue
