import NxgtData.Queue.Invariants

/-!
The order of `ready`. A job's score is its priority and the number `seq` counted when it last
became ready, so the scores tell, of a list of the jobs in the order they became ready, which
place of it is each ready job's last. A part of a script either lets jobs leave `ready` or puts
one there under the next number.
-/
namespace NxgtData.Queue
open Decimal Gcra

variable {m : GroupArgs} {b b' b'' : Board} {id : String}

/-- Nothing comes to `ready`, no score changes there, and no priority does. -/
structure Board.Stays (b b' : Board) : Prop where
  ready : ∀ id s, b'.ready.score id = some s → b.ready.score id = some s
  groups : ∀ g id s, (b'.groups.ready g).score id = some s → (b.groups.ready g).score id = some s
  hashes : ∀ id h', b'.job id = some h' → ∃ h, b.job id = some h ∧ h'.priority = h.priority

namespace Board.Stays

theorem refl (b : Board) : b.Stays b := ⟨fun _ _ => id, fun _ _ _ => id, fun _ h is => ⟨h, is, rfl⟩⟩

theorem trans (h : b.Stays b') (k : b'.Stays b'') : b.Stays b'' where
  ready := fun id s is => h.ready id s (k.ready id s is)
  groups := fun g id s is => h.groups g id s (k.groups g id s is)
  hashes := fun id h'' is => by
    obtain ⟨h', was', same'⟩ := k.hashes id h'' is
    obtain ⟨h, was, same⟩ := h.hashes id h' was'
    exact ⟨h, was, same'.trans same⟩

/-- The hashes, `ready` and its mirrors are all it looks at. -/
theorem congr (job : b'.job = b.job) (ready : b'.ready = b.ready)
    (groups : b'.groups.ready = b.groups.ready) : b.Stays b' where
  ready := fun id s is => by rwa [ready] at is
  groups := fun g id s is => by rwa [groups] at is
  hashes := fun id h is => ⟨h, by rwa [job] at is, rfl⟩

theorem hset {h : JobHash} (was : b.job id = some h) {f : JobHash → JobHash}
    (keeps : (f h).priority = h.priority) : b.Stays (b.hset id f) where
  ready := fun _ _ => fun is => is
  groups := fun _ _ _ => fun is => is
  hashes := fun x h' is => by
    rw [Board.hset, Board.hmget_of_job was] at is
    change Function.update b.job id (some (f h)) x = some h' at is
    rw [Function.update_apply] at is
    split at is
    next own =>
      cases is
      exact ⟨h, own ▸ was, keeps⟩
    · exact ⟨h', is, rfl⟩

theorem hdel (id : String) {f : JobHash → JobHash} (keeps : ∀ h, (f h).priority = h.priority) :
    b.Stays (b.hdel id f) where
  ready := fun _ _ => fun is => is
  groups := fun _ _ _ => fun is => is
  hashes := fun x h' is => by
    change Function.update b.job id ((b.job id).map f) x = some h' at is
    rw [Function.update_apply] at is
    split at is
    next own =>
      obtain ⟨h, was, rfl⟩ := Option.map_eq_some_iff.mp is
      exact ⟨h, own ▸ was, keeps h⟩
    · exact ⟨h', is, rfl⟩

theorem del (id : String) : b.Stays (b.del id) where
  ready := fun _ _ => fun is => is
  groups := fun _ _ _ => fun is => is
  hashes := fun x h' is => by
    change Function.update b.job id none x = some h' at is
    rw [Function.update_apply] at is
    split at is
    · exact absurd is nofun
    · exact ⟨h', is, rfl⟩

theorem readyRem (id g : String) : b.Stays (b.readyRem m id g) where
  ready := fun x s is => by
    change (b.ready.rem id).score x = some s at is
    rw [SortedSet.score_rem] at is
    split at is
    · exact absurd is nofun
    · exact is
  groups := fun g' x s is => by
    change ((b.groups.readyRem m id g).ready g').score x = some s at is
    unfold GroupKeys.readyRem at is
    split at is
    · change (Function.update b.groups.ready g _ g').score x = some s at is
      rw [Function.update_apply] at is
      split at is
      next own =>
        rw [SortedSet.score_rem] at is
        split at is
        · exact absurd is nofun
        · exact own ▸ is
      · exact is
    · exact is
  hashes := fun _ h is => ⟨h, is, rfl⟩

theorem activeRem (id g : String) : b.Stays (b.activeRem m id g).2 := by
  unfold Board.activeRem
  split
  · refine congr rfl rfl ?_
    exact GroupKeys.slotFreed_ready b.groups g
  · exact .refl b

theorem publish (e : Event) : b.Stays (b.publish e) := .congr rfl rfl rfl

theorem trim {place : Board → ZSet} {drop : Board → String → Board}
    (drops : ∀ b id, Board.Stays b (drop b id)) (now age count : Int) :
    b.Stays (trim place drop now age count b) := by
  have dropped : ∀ (ids : List String) (b : Board), b.Stays (ids.foldl drop b) := by
    intro ids
    induction ids with
    | nil => exact fun b => .refl b
    | cons id ids ih => exact fun b => (drops b id).trans (ih _)
  unfold Queue.trim
  dsimp only
  split
  · split
    · exact (dropped _ _).trans (dropped _ _)
    · exact dropped _ _
  · exact dropped _ _

theorem trimCompleted (now age count : Int) :
    b.Stays (Queue.trim Board.completed dropCompleted now age count b) :=
  trim (fun b id => @Board.Stays.trans _ _ (dropCompleted b id) (del id) (.congr rfl rfl rfl)) now age count

theorem trimFailed (now age count : Int) :
    b.Stays (Queue.trim Board.failed dropFailed now age count b) :=
  trim (fun b id => @Board.Stays.trans _ _ (dropFailed b id) (del id) (.congr rfl rfl rfl)) now age count

theorem refuse (now : Nat) (id : String) : b.Stays (b.refuse m now id) := by
  unfold Board.refuse
  dsimp only
  let undelayed : Board := { b with delayed := b.delayed.rem id }
  have cleared : b.Stays
      ((undelayed.readyRem m id (b.groupOf id)).activeRem m id (b.groupOf id)).2 :=
    @Board.Stays.trans b undelayed _ (.congr rfl rfl rfl)
      ((readyRem id _).trans (activeRem id _))
  generalize ((undelayed.readyRem m id (b.groupOf id)).activeRem m id (b.groupOf id)).2 = b'
    at cleared ⊢
  split
  · exact cleared
  next there =>
    obtain ⟨h, was⟩ := Option.ne_none_iff_exists'.mp (by simpa using there)
    refine cleared.trans ((hset was (f := fun h => { h with
      state := some .failed, error := some invalidError, finished := some (toString now) })
      rfl).trans ((hdel id (f := fun h => { h with token := none }) fun _ => rfl).trans ?_))
    exact .congr rfl rfl rfl

end Board.Stays

/-- A job comes to `ready` under the number `seq`, and no other job does. -/
structure Board.Readies (id : String) (priority seq : Nat) (b b' : Board) : Prop where
  mem : id ∈ b'.ready
  ready : ∀ x s, b'.ready.score x = some s →
    (x = id ∧ s = readyScore priority seq) ∨ (x ≠ id ∧ b.ready.score x = some s)
  groups : ∀ g x s, (b'.groups.ready g).score x = some s →
    (x = id ∧ s = readyScore priority seq) ∨ (b.groups.ready g).score x = some s
  own : ∃ h, b'.job id = some h ∧ h.priority = some (toString priority)
  hashes : ∀ x, x ≠ id → ∀ h', b'.job x = some h' →
    ∃ h, b.job x = some h ∧ h'.priority = h.priority

namespace Board.Readies
variable {priority seq : Nat}

theorem readyAdd {h : JobHash} (was : b.job id = some h)
    (priority_ : h.priority = some (toString priority)) (g : String) :
    Board.Readies id priority seq b (b.readyAdd m id (readyScore priority seq) g).2 where
  mem := SortedSet.mem_add.mpr (.inl rfl)
  ready := fun x s is => by
    change (b.ready.add _ id).score x = some s at is
    rw [SortedSet.score_add] at is
    split at is
    next own => exact .inl ⟨own, (Option.some.inj is).symm⟩
    next other => exact .inr ⟨other, is⟩
  groups := fun g' x s is => by
    by_cases hm : m.grouped = true
    · change ((b.groups.readyAdd m id _ g).2.ready g').score x = some s at is
      rw [GroupKeys.readyAdd_ready hm, Function.update_apply] at is
      split at is
      next same =>
        rw [SortedSet.score_add] at is
        split at is
        next own => exact .inl ⟨own, (Option.some.inj is).symm⟩
        · exact .inr (same ▸ is)
      · exact .inr is
    · have same : (b.groups.readyAdd m id (readyScore priority seq) g).2 = b.groups := by
        simp [GroupKeys.readyAdd, hm]
      change ((b.groups.readyAdd m id _ g).2.ready g').score x = some s at is
      rw [same] at is
      exact .inr is
  own := ⟨h, was, priority_⟩
  hashes := fun _ _ h is => ⟨h, is, rfl⟩

/-- What stays before a job comes to `ready` changes nothing of it. -/
theorem of_stays (h : b.Stays b') (k : Board.Readies id priority seq b' b'') :
    Board.Readies id priority seq b b'' where
  mem := k.mem
  ready := fun x s is => (k.ready x s is).imp_right fun ⟨other, was⟩ => ⟨other, h.ready x s was⟩
  groups := fun g x s is => (k.groups g x s is).imp_right (h.groups g x s)
  own := k.own
  hashes := fun x other h'' is => by
    obtain ⟨h', was', same'⟩ := k.hashes x other h'' is
    obtain ⟨h, was, same⟩ := h.hashes x h' was'
    exact ⟨h, was, same'.trans same⟩

/-- Nor does a field deleted from the job's hash after. -/
theorem hdel (h : Board.Readies id priority seq b b') {f : JobHash → JobHash}
    (keeps : ∀ h, (f h).priority = h.priority) : Board.Readies id priority seq b (b'.hdel id f) where
  mem := h.mem
  ready := h.ready
  groups := h.groups
  own := by
    obtain ⟨own, was, priority_⟩ := h.own
    exact ⟨f own, Board.hdel_job was f, (keeps own).trans priority_⟩
  hashes := fun x other h' is =>
    h.hashes x other h' ((Function.update_of_ne other ..).symm.trans is)

end Board.Readies

/-- The place of a list where an item stands last. -/
def LastAt {α : Type} (log : List α) (a : α) (i : Nat) : Prop :=
  log[i]? = some a ∧ ∀ j, i < j → log[j]? ≠ some a

section LastAt
variable {α : Type} {log : List α} {a a' : α} {i : Nat}

theorem LastAt.lt (h : LastAt log a i) : i < log.length := (List.getElem?_eq_some_iff.mp h.1).1

theorem LastAt.append (h : LastAt log a i) (other : a ≠ a') : LastAt (log ++ [a']) a i := by
  refine ⟨by rw [List.getElem?_append_left h.lt]; exact h.1, fun j later => ?_⟩
  rw [List.getElem?_append]
  split
  · exact h.2 j later
  next past =>
    intro is
    cases at_ : j - log.length with
    | zero =>
        rw [at_] at is
        exact other (Option.some.inj is).symm
    | succ k =>
        rw [at_] at is
        exact absurd is nofun

theorem lastAt_append (log : List α) (a : α) : LastAt (log ++ [a]) a log.length := by
  refine ⟨List.getElem?_concat_length, fun j later => ?_⟩
  rw [List.getElem?_eq_none (by rw [List.length_append, List.length_singleton]; omega)]
  exact nofun

theorem LastAt.unique {j : Nat} (h : LastAt log a i) (k : LastAt log a j) : i = j := by
  rcases Nat.lt_trichotomy i j with lt | eq | gt
  · exact absurd k.1 (h.2 j lt)
  · exact eq
  · exact absurd h.1 (k.2 i gt)

theorem LastAt.inj (h : LastAt log a i) (k : LastAt log a' i) : a = a' :=
  Option.some.inj (h.1.symm.trans k.1)

end LastAt

/-- The jobs became ready in the order of the log, and each ready one is scored by its priority
and by its last place there. -/
structure Ordered (m : GroupArgs) (log : List String) (b : Board) : Prop where
  hashes : ∀ id h, b.job id = some h → ∃ p ≤ 1000, h.priority = some (toString p)
  scored : ∀ id h s, b.job id = some h → b.ready.score id = some s →
    ∃ p i, h.priority = some (toString p) ∧ LastAt log id i ∧ s = readyScore p (i + 1)
  mirror : m.grouped = true → ∀ g id s,
    (b.groups.ready g).score id = some s → b.ready.score id = some s

namespace Ordered
variable {log : List String}

theorem empty (m : GroupArgs) : Ordered m [] {} where
  hashes := fun _ _ is => absurd is nofun
  scored := fun _ _ _ is => absurd is nofun
  mirror := fun _ _ _ _ is => absurd is nofun

/-- A job of a group is one of `ready`. -/
theorem score_of_mirror (hb : Sane m b) (grouped : m.grouped = true) {g id : String} {s : Nat}
    (is : (b.groups.ready g).score id = some s) : ∃ s', b.ready.score id = some s' :=
  SortedSet.mem_iff_score.mp
    (((hb.grouped grouped).mirror g id).mp (SortedSet.mem_iff_score.mpr ⟨s, is⟩)).1

theorem stays (h : Ordered m log b) (k : b.Stays b') (hb : Sane m b') : Ordered m log b' where
  hashes := fun id h' is => by
    obtain ⟨old, was, same⟩ := k.hashes id h' is
    rw [same]
    exact h.hashes id old was
  scored := fun id h' s is score => by
    obtain ⟨old, was, same⟩ := k.hashes id h' is
    rw [same]
    exact h.scored id old s was (k.ready id s score)
  mirror := fun grouped g id s is => by
    obtain ⟨s', there⟩ := score_of_mirror hb grouped is
    have same := (h.mirror grouped g id s (k.groups g id s is)).symm.trans (k.ready id s' there)
    rw [there, ← Option.some.inj same]

theorem readies {priority : Nat} (h : Ordered m log b)
    (k : Board.Readies id priority (log.length + 1) b b') (le : priority ≤ 1000)
    (out : id ∉ b.ready) (hb : Sane m b') : Ordered m (log ++ [id]) b' where
  hashes := fun x h' is => by
    by_cases own : x = id
    · obtain ⟨h'', was, same⟩ := k.own
      rw [own, was] at is
      cases is
      exact ⟨priority, le, same⟩
    · obtain ⟨old, was, same⟩ := k.hashes x own h' is
      rw [same]
      exact h.hashes x old was
  scored := fun x h' s is score => by
    rcases k.ready x s score with ⟨rfl, rfl⟩ | ⟨other, before⟩
    · obtain ⟨h'', was, same⟩ := k.own
      rw [was] at is
      cases is
      exact ⟨priority, log.length, same, lastAt_append log x, rfl⟩
    · obtain ⟨old, was, same⟩ := k.hashes x other h' is
      obtain ⟨p, i, priority_, last, scored⟩ := h.scored x old s was before
      exact ⟨p, i, same.trans priority_, last.append other, scored⟩
  mirror := fun grouped g x s is => by
    obtain ⟨s', there⟩ := score_of_mirror hb grouped is
    rw [there]
    rcases k.groups g x s is with ⟨rfl, rfl⟩ | before
    · rcases k.ready x s' there with ⟨-, rfl⟩ | ⟨other, -⟩
      · rfl
      · exact absurd rfl other
    · have was := h.mirror grouped g x s before
      rcases k.ready x s' there with ⟨rfl, -⟩ | ⟨-, before'⟩
      · exact absurd (SortedSet.mem_iff_score.mpr ⟨s, was⟩) out
      · exact (before'.symm.trans was)

/-- A job under an id that was free, which does not come to `ready`. -/
theorem delays (h : Ordered m log b) (ready : b'.ready = b.ready) (groups : b'.groups.ready = b.groups.ready)
    {h' : JobHash} {priority : Nat} (le : priority ≤ 1000)
    (written : b'.job = Function.update b.job id (some h'))
    (priority_ : h'.priority = some (toString priority)) (out : id ∉ b.ready) :
    Ordered m log b' where
  hashes := fun x h'' is => by
    rw [written, Function.update_apply] at is
    split at is
    · cases is
      exact ⟨priority, le, priority_⟩
    · exact h.hashes x h'' is
  scored := fun x h'' s is score => by
    rw [ready] at score
    rw [written, Function.update_apply] at is
    split at is
    next own => exact absurd (SortedSet.mem_iff_score.mpr ⟨s, own ▸ score⟩) out
    · exact h.scored x h'' s is score
  mirror := fun grouped g x s is => by
    rw [ready]
    rw [groups] at is
    exact h.mirror grouped g x s is

end Ordered

end NxgtData.Queue
