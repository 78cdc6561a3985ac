import Mathlib.Data.List.Infix
import NxgtData.Queue.Paths.Exec

/-!
What makes work claimable. Each helper that can open work says so in its answer:
where it answers no, nothing is claimable after it that was not before. Outside
a turn of `pop_groups` the list of groups only grows, at its end.
-/
namespace NxgtData.Queue
open GroupKeys

variable {m : GroupArgs}

/-- Work is claimable: a job in `ready`, and on a grouped queue a group with
ready jobs and a free slot. -/
def Board.Work (m : GroupArgs) (b : Board) : Prop :=
  if m.grouped then ∃ g, b.groups.Claimable m g else ∃ id, id ∈ b.ready

/-- A part of a script opens work only if it answers so, and puts groups
nowhere but at the end of the list. -/
structure Opens (m : GroupArgs) (opened : Bool) (b b' : Board) : Prop where
  work : b'.Work m → b.Work m ∨ opened = true
  appends : b.groups.list <+: b'.groups.list

namespace GroupKeys
variable {k : GroupKeys}

theorem hasSlot_of_counter {k' : GroupKeys} {g : String}
    (same : (k'.active g).getD 0 = (k.active g).getD 0) : k'.hasSlot m g = k.hasSlot m g := by
  simp only [hasSlot, same]

theorem readyAdd_fst (hm : m.grouped = true) (id g : String) (score : Nat) :
    (k.readyAdd m id score g).1 = k.hasSlot m g := by
  have same : (k.readyAdd m id score g).2.hasSlot m g = k.hasSlot m g :=
    hasSlot_congr (congrFun (readyAdd_active k id g score) g)
  simp only [readyAdd, hm, Bool.not_true, Bool.false_eq_true, ite_false] at same ⊢
  split
  next full =>
    rw [if_pos full] at same
    rw [← same]
    simpa using full.symm
  next free =>
    rw [if_neg free, hasSlot_rrPush] at same
    rw [← same]
    simp only [Bool.not_eq_true, Bool.not_eq_false'] at free
    exact free.symm

theorem list_readyAdd (k : GroupKeys) (id g : String) (score : Nat) :
    k.list <+: (k.readyAdd m id score g).2.list := by
  unfold readyAdd
  split
  next => exact List.prefix_rfl
  next =>
    dsimp only
    split
    next => exact List.prefix_rfl
    next =>
      let added : GroupKeys := { k with ready := Function.update k.ready g ((k.ready g).add score id) }
      exact list_rrPush added g

theorem list_slotFreed (k : GroupKeys) (g : String) : k.list <+: (k.slotFreed m g).2.list := by
  unfold slotFreed
  split
  next => exact List.prefix_rfl
  next =>
    dsimp only
    split
    next => simp
    next => simpa using list_rrPush (k.uncount g) g

theorem slotFreed_fst (hm : m.grouped = true) (g : String) :
    (k.slotFreed m g).1 = true ↔ (k.slotFreed m g).2.Claimable m g := by
  have ready : (k.uncount g).ready = k.ready := uncount_ready k g
  simp only [slotFreed, hm, Bool.not_true, Bool.false_eq_true, ite_false]
  split
  next idle =>
    simp only [Bool.false_eq_true, false_iff]
    rintro ⟨slot, jobs⟩
    have some := SortedSet.card_pos_iff.mpr jobs
    simp only [slot, Bool.not_true, Bool.or_false, decide_eq_true_eq] at idle
    omega
  next free =>
    simp only [Bool.or_eq_true, decide_eq_true_eq, Bool.not_eq_eq_eq_not, Bool.not_true, not_or,
      Bool.not_eq_false] at free
    refine iff_of_true rfl ⟨by rw [hasSlot_rrPush]; exact free.2, ?_⟩
    rw [rrPush_ready]
    exact SortedSet.card_pos_iff.mp (Nat.pos_of_ne_zero free.1)

end GroupKeys

namespace Opens
variable {b b' b'' : Board} {opened opened' : Bool}

theorem refl (b : Board) (opened : Bool) : Opens m opened b b := ⟨Or.inl, List.prefix_rfl⟩

theorem trans (h : Opens m opened b b') (k : Opens m opened' b' b'') :
    Opens m (opened || opened') b b'' where
  work := by
    intro work
    rcases k.work work with before | opens
    · rcases h.work before with first | opens
      · exact Or.inl first
      · simp [opens]
    · simp [opens]
  appends := h.appends.trans k.appends

theorem after (h : Opens m opened b b') (k : Opens m false b' b'') : Opens m opened b b'' := by
  simpa using h.trans k

theorem before (h : Opens m false b b') (k : Opens m opened b' b'') : Opens m opened b b'' := by
  simpa using h.trans k

/-- Whatever a part answers, it may have opened work. -/
theorem any (h : Opens m opened b b') : Opens m true b b' := ⟨fun _ => Or.inr rfl, h.appends⟩

/-- Work is a matter of `ready` and the group keys. -/
theorem congr (ready : b'.ready = b.ready) (groups : b'.groups = b.groups) :
    Opens m opened b b' where
  work := by
    intro work
    unfold Board.Work at work ⊢
    rw [ready, groups] at work
    exact Or.inl work
  appends := by
    rw [groups]

theorem readyAdd (id g : String) (score : Nat) :
    Opens m (b.readyAdd m id score g).1 b (b.readyAdd m id score g).2 where
  work := by
    intro work
    by_cases hm : m.grouped = true
    · simp only [Board.Work, hm, ite_true] at work ⊢
      obtain ⟨x, slot, jobs⟩ := work
      change GroupKeys.hasSlot m x (b.groups.readyAdd m id score g).2 = true at slot
      rw [hasSlot_congr (congrFun (readyAdd_active b.groups id g score) x)] at slot
      change ∃ job, job ∈ (b.groups.readyAdd m id score g).2.ready x at jobs
      rw [readyAdd_ready hm] at jobs
      by_cases own : x = g
      · subst own
        exact Or.inr ((readyAdd_fst hm id x score).trans slot)
      · rw [Function.update_of_ne own] at jobs
        exact Or.inl ⟨x, slot, jobs⟩
    · simp [Board.readyAdd, GroupKeys.readyAdd, hm]
  appends := list_readyAdd b.groups id g score

theorem activeRem (id g : String) : Opens m (b.activeRem m id g).1 b (b.activeRem m id g).2 := by
  unfold Board.activeRem
  split
  next =>
    refine ⟨fun work => ?_, list_slotFreed b.groups g⟩
    by_cases hm : m.grouped = true
    · simp only [Board.Work, hm, ite_true] at work ⊢
      obtain ⟨x, slot, jobs⟩ := work
      by_cases own : x = g
      · subst own
        exact Or.inr ((slotFreed_fst hm x).mpr ⟨slot, jobs⟩)
      · have counter := slotFreed_active hm b.groups g x
        rw [if_neg fun h => own h.2] at counter
        rw [hasSlot_of_counter counter] at slot
        rw [slotFreed_ready] at jobs
        exact Or.inl ⟨x, slot, jobs⟩
    · simp only [Board.Work, hm, Bool.false_eq_true, ite_false] at work ⊢
      exact Or.inl work
  next => exact .refl b false

theorem readyRem (id g : String) : Opens m false b (b.readyRem m id g) where
  work := by
    intro work
    left
    by_cases hm : m.grouped = true
    · simp only [Board.Work, hm, ite_true] at work ⊢
      obtain ⟨x, slot, job, mem⟩ := work
      simp only [Board.readyRem, GroupKeys.readyRem, hm, ite_true, Function.update_apply]
        at slot mem
      refine ⟨x, slot, job, ?_⟩
      split at mem
      next own => exact own ▸ (SortedSet.mem_rem.mp mem).1
      next => exact mem
    · simp only [Board.Work, hm, Bool.false_eq_true, ite_false] at work ⊢
      obtain ⟨job, mem⟩ := work
      exact ⟨job, (SortedSet.mem_rem.mp mem).1⟩
  appends := by
    unfold Board.readyRem GroupKeys.readyRem
    split <;> exact List.prefix_rfl

end Opens
end NxgtData.Queue
