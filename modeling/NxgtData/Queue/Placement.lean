import NxgtData.Queue.Moves

/-!
Every move keeps the zsets and the hashes in agreement. Nothing here looks at
the group keys: the argument is one job leaving one zset and entering another.
-/
namespace NxgtData.Queue
open Decimal

/-- What `Placed` asks of one hash. -/
def JobHash.Ok (h : JobHash) : Prop :=
  h.state.isSome ∧ (h.token.isSome ↔ h.state = some .active)

theorem Placed.ok {b : Board} (hb : Placed b) {id : String} {h : JobHash}
    (was : b.job id = some h) : h.Ok := ⟨hb.state_some id h was, hb.token_iff id h was⟩

theorem Placed.empty : Placed ({} : Board) where
  mem_place := by intro id s; cases s <;> simp [Board.place, Board.stateOf]
  state_some := by intro id h was; cases was
  token_iff := by intro id h was; cases was

/-- A token is only there while the job is active, so a job that waits has none. -/
theorem JobHash.Ok.token_none {h : JobHash} (ok : h.Ok) (idle : h.state ≠ some .active) :
    h.token = none := by
  cases ht : h.token with
  | none => rfl
  | some t => exact absurd (ok.2.mp (by simp [ht])) idle

theorem Change.ok {a : Act} {o : Option JobHash} {ev : List Event} {h' : JobHash}
    (change : Change a o ev (some h')) (was : ∀ h, o = some h → h.Ok) : h'.Ok := by
  cases change with
  | create state token attempt step =>
      rcases state with state | state <;> simp [JobHash.Ok, state, token]
  | @debounce _ h data runAt state attempt =>
      have none : h.token = none := (was h rfl).token_none (by rcases state with s | s <;> simp [s])
      simp [JobHash.Ok, none]
  | @promote _ h state trusted =>
      have none : h.token = none := (was h rfl).token_none (by simp [state])
      simp [JobHash.Ok, none]
  | reclaim | lapse | refuse | start | complete | retryLater | failFinal | release | retry =>
      simp [JobHash.Ok]
  | renew | begun => exact was h' rfl
  | @progress _ _ h value holds => exact was h rfl
  | @commit _ _ _ _ h holds => exact was h rfl
  | drop => exact was h' rfl

namespace Placed
variable {m : GroupArgs} {b : Board}

theorem congr {b' : Board} (hb : Placed b) (job : b'.job = b.job)
    (place : ∀ s, b'.place s = b.place s) : Placed b' where
  mem_place := by
    intro id s
    rw [place, hb.mem_place, Board.stateOf, Board.stateOf, job]
  state_some := by rw [job]; exact hb.state_some
  token_iff := by rw [job]; exact hb.token_iff

theorem mem_shift (hb : Placed b) (id g id' : String) (h : Option JobHash) (score : Nat)
    (ev : List Event) (s : JobState) :
    id' ∈ (b.shift m id g h score ev).place s ↔
      if id' = id then h.bind JobHash.state = some s else id' ∈ b.place s := by
  have announced : (b.shift m id g h score ev).place s =
      (((b.leave m id).put id h).enter m id g score).place s := by cases s <;> rfl
  rw [announced, Board.mem_enter, Board.put_place, Board.stateOf_put, hb.mem_leave]
  by_cases eq : id' = id <;> simp [eq]

theorem shift (hb : Placed b) {id g : String} {h : Option JobHash} {score : Nat}
    {ev : List Event} (ok : ∀ h', h = some h' → h'.Ok) : Placed (b.shift m id g h score ev) where
  mem_place := by
    intro id' s
    rw [hb.mem_shift, Board.stateOf, Board.shift_job]
    by_cases eq : id' = id
    · simp [eq]
    · rw [if_neg eq, Function.update_of_ne eq]
      exact hb.mem_place id' s
  state_some := by
    intro id' h' was
    rw [Board.shift_job, Function.update_apply] at was
    split at was
    · exact (ok h' was).1
    · exact hb.state_some id' h' was
  token_iff := by
    intro id' h' was
    rw [Board.shift_job, Function.update_apply] at was
    split at was
    · exact (ok h' was).2
    · exact hb.token_iff id' h' was

theorem put (hb : Placed b) {id : String} {h h' : JobHash} (was : b.job id = some h)
    (state : h'.state = h.state) (token : h'.token = h.token) : Placed (b.put id (some h')) where
  mem_place := by
    intro id' s
    rw [Board.put_place, hb.mem_place]
    by_cases eq : id' = id
    · simp [eq, Board.stateOf, was, state]
    · rw [Board.stateOf_put_ne eq]
  state_some := by
    intro id' k hk
    rw [Board.put_job, Function.update_apply] at hk
    split at hk
    · cases hk
      rw [state]
      exact hb.state_some id h was
    · exact hb.state_some id' k hk
  token_iff := by
    intro id' k hk
    rw [Board.put_job, Function.update_apply] at hk
    split at hk
    · cases hk
      rw [state, token]
      exact hb.token_iff id h was
    · exact hb.token_iff id' k hk

theorem touch (hb : Placed b) {id : String} (mem : id ∈ b.active) (score : Nat) :
    Placed { b with active := b.active.add score id } where
  mem_place := by
    intro id' s
    cases s with
    | active =>
        change id' ∈ b.active.add score id ↔ _
        rw [SortedSet.mem_add]
        constructor
        · rintro (rfl | later)
          · exact (hb.mem_place id' .active).mp mem
          · exact (hb.mem_place id' .active).mp later
        · exact fun state => Or.inr ((hb.mem_place id' .active).mpr state)
    | waiting => exact hb.mem_place id' .waiting
    | delayed => exact hb.mem_place id' .delayed
    | completed => exact hb.mem_place id' .completed
    | failed => exact hb.mem_place id' .failed
  state_some := hb.state_some
  token_iff := hb.token_iff

theorem groups (hb : Placed b) (k : GroupKeys) : Placed { b with groups := k } :=
  hb.congr rfl fun s => by cases s <;> rfl

theorem requeue (hb : Placed b) (g : String) : Placed (b.requeue m g) := by
  unfold Board.requeue
  split
  · exact hb.groups _
  · exact hb

theorem move {b' : Board} {a : Act} (hb : Placed b) (h : Move m b a b') : Placed b' := by
  cases h with
  | shift score change _ _ =>
      exact hb.shift fun h' eq => by subst eq; exact change.ok fun h was => hb.ok was
  | serve score grouped taken list slot head change kind =>
      refine Placed.requeue ?_ _
      exact (hb.groups _).shift fun h' eq => by subst eq; exact change.ok fun h was => hb.ok was
  | drop grouped taken idle => exact hb.groups _
  | edit change was same => exact hb.put was same.1 same.2.1
  | touch score was holds mem => exact hb.touch mem score

theorem path {b' : Board} {as : List Act} (h : Path (Move m) b as b') (hb : Placed b) :
    Placed b' := h.invariant (fun hs hm => hs.move hm) hb

theorem score_shift (hb : Placed b) {id g id' : String} {h : Option JobHash} {score : Nat}
    {ev : List Event} (ne : id' ≠ id) (s : JobState) :
    ((b.shift m id g h score ev).place s).score id' = (b.place s).score id' := by
  have announced : (b.shift m id g h score ev).place s =
      (((b.leave m id).put id h).enter m id g score).place s := by cases s <;> rfl
  rw [announced, Board.place_enter, Board.put_place, hb.place_leave]
  split <;> split <;> simp [SortedSet.score_add, SortedSet.score_rem, ne]

/-- A waiting job that does not wait on leaves `ready` and nothing else there. -/
theorem ready_shift (hb : Placed b) {id g : String} {h : Option JobHash} {score : Nat}
    {ev : List Event} (waiting : b.stateOf id = some .waiting)
    (done : h.bind JobHash.state ≠ some .waiting) :
    (b.shift m id g h score ev).ready = b.ready.rem id := by
  have left := hb.place_leave (m := m) id .waiting
  have entered := Board.place_enter ((b.leave m id).put id h) m id g score .waiting
  rw [Board.stateOf_put, if_neg done, Board.put_place, left, if_pos waiting] at entered
  exact entered

end Placed

/-- The job's hash, and its score in each zset. -/
def Board.view (id : String) (b : Board) : Option JobHash × (JobState → Option Nat) :=
  (b.job id, fun s => (b.place s).score id)

@[simp] theorem Board.place_requeue (b : Board) (m : GroupArgs) (g : String) (s : JobState) :
    (b.requeue m g).place s = b.place s := by
  unfold Board.requeue
  split
  · cases s <;> rfl
  · rfl

@[simp] theorem Board.requeue_job (b : Board) (m : GroupArgs) (g : String) :
    (b.requeue m g).job = b.job := by
  unfold Board.requeue; split <;> rfl

@[simp] theorem Board.requeue_events (b : Board) (m : GroupArgs) (g : String) :
    (b.requeue m g).events = b.events := by
  unfold Board.requeue; split <;> rfl

namespace Move
variable {m : GroupArgs} {b b' : Board} {a : Act} {id : String}

/-- A move touches no hash but its own job's. -/
theorem job_of_ne (h : Move m b a b') (ne : id ≠ a.id) : b'.job id = b.job id := by
  cases h with
  | shift | serve => simp [ne]
  | drop => rfl
  | edit => simp [ne]
  | touch => rfl

/-- What a move does to its own job, and what it publishes. -/
theorem change (h : Move m b a b') :
    ∃ ev, Change a (b.job a.id) ev (b'.job a.id) ∧ b'.events = b.events ++ ev := by
  cases h with
  | @shift _ ev _ score change => exact ⟨ev, by simpa using change, by simp⟩
  | @serve _ ev _ g rest k score _ _ _ _ _ change =>
      refine ⟨ev, by simpa using change, ?_⟩
      rw [Board.requeue_events, Board.shift_events]
  | drop => exact ⟨[], .drop, by simp⟩
  | edit change was =>
      exact ⟨[], by simpa using change, by simp [Board.put]⟩
  | @touch id _ h score was holds =>
      refine ⟨[], ?_, by simp⟩
      change Change _ (b.job id) [] (b.job id)
      rw [was]
      exact .renew holds

/-- A move moves no job but its own. -/
theorem score_of_ne (hb : Placed b) (h : Move m b a b') (ne : id ≠ a.id) (s : JobState) :
    (b'.place s).score id = (b.place s).score id := by
  cases h with
  | shift score change _ moves => exact hb.score_shift ne s
  | serve score _ _ _ _ _ change =>
      rw [Board.place_requeue, (hb.groups _).score_shift ne s]
      cases s <;> rfl
  | drop => cases s <;> rfl
  | edit => rw [Board.put_place]
  | touch score was holds mem =>
      cases s with
      | active =>
          change (b.active.add _ _).score id = b.active.score id
          rw [SortedSet.score_add]
          exact if_neg ne
      | waiting | delayed | completed | failed => rfl

theorem view_of_ne (hb : Placed b) (h : Move m b a b') (ne : id ≠ a.id) :
    b'.view id = b.view id := by
  unfold Board.view
  rw [h.job_of_ne ne, funext fun s => h.score_of_ne hb ne s]

theorem mem_of_ne (hb : Placed b) (h : Move m b a b') (ne : id ≠ a.id) (s : JobState) :
    id ∈ b'.place s ↔ id ∈ b.place s := by
  rw [← SortedSet.score_isSome, h.score_of_ne hb ne, SortedSet.score_isSome]

end Move
end NxgtData.Queue
