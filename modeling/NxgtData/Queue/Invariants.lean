import NxgtData.Queue.Paths.Exec

/-!
Where a job is, after every script of every run: the zsets, the hashes and the
tokens agree, and on a grouped queue the group keys agree with them. The only
thing asked of the calls is that a job's group is one the reader accepts.
-/
namespace NxgtData.Queue
open Decimal Gcra

/-- Every hash names a sound group, so `group_of` answers its field. -/
theorem run_groupSound {m : GroupArgs} (calls : List Timed)
    (sends : Sends NewJob.GroupSound calls) {id : String} {h : JobHash}
    (was : (run m calls).job id = some h) : groupSound h.group = true := by
  refine (run_leads calls sends fun _ sound => sound).hashes (I := fun h =>
    groupSound h.group = true) ?_ ?_ (by simp) id h was
  · rintro id h ⟨j, now, sound, -, rfl⟩
    change groupSound (if m.grouped = true ∧ j.group ≠ "" then some j.group else none) = true
    split
    next => exact sound
    next => rfl
  · intro a h ev h' change sound
    cases change <;> exact sound

/-- After every script a job is in the one zset its hash names, and has a token
exactly while it is active. -/
theorem run_places (m : GroupArgs) (calls : List Timed) (sends : Sends NewJob.GroupSound calls)
    (id : String) :
    let q := run m calls
    (∀ s s', id ∈ q.place s → id ∈ q.place s' → s = s') ∧
    ((q.job id).isSome ↔ ∃ s, id ∈ q.place s) ∧
    (∀ h s, q.job id = some h → (h.state = some s ↔ id ∈ q.place s)) ∧
    ∀ h, q.job id = some h → (h.token.isSome ↔ id ∈ q.active) := by
  have placed := (run_sane (m := m) calls sends).placed
  refine ⟨?_, ?_, ?_, ?_⟩
  · intro s s' mem mem'
    have state := (placed.mem_place id s).mp mem
    have state' := (placed.mem_place id s').mp mem'
    exact Option.some.inj (state.symm.trans state')
  · constructor
    · intro there
      obtain ⟨h, was⟩ := Option.isSome_iff_exists.mp there
      obtain ⟨s, state⟩ := Option.isSome_iff_exists.mp (placed.state_some id h was)
      exact ⟨s, (placed.mem_place id s).mpr ((Board.stateOf_of_job was).trans state)⟩
    · rintro ⟨s, mem⟩
      obtain ⟨h, was, -⟩ := placed.job_of_mem mem
      simp [was]
  · intro h s was
    rw [placed.mem_place, Board.stateOf_of_job was]
  · intro h was
    rw [placed.token_iff id h was, ← Board.stateOf_of_job was, ← placed.mem_place]
    rfl

/-- A run that adds a job and claims it. -/
def addAndClaim : List Timed :=
  [(0, .add [{ id := "a", data := "null", priority := 0, attempts := 1, group := "g" }]),
    (1000, .claim 30000 none ["t"])]

theorem sends_addAndClaim : Sends NewJob.GroupSound addAndClaim := by
  intro c mem
  simp only [addAndClaim, List.mem_cons, List.not_mem_nil, or_false] at mem
  rcases mem with rfl | rfl
  · intro j mem
    rw [List.mem_singleton.mp mem]
    change groupSound (some "g") = true
    decide
  · trivial

theorem run_places_addAndClaim : "a" ∈ (run ⟨true, 2⟩ addAndClaim).active ∧
    ((run ⟨true, 2⟩ addAndClaim).job "a").isSome :=
  have places := run_places ⟨true, 2⟩ addAndClaim sends_addAndClaim "a"
  have active : "a" ∈ (run ⟨true, 2⟩ addAndClaim).active := by decide
  ⟨active, places.2.1.mpr ⟨.active, active⟩⟩

/-- The group keys of a grouped queue, after every script: the mirrors of
`ready`, the counters of `active`, the list and its set, and no claimable group
left out. -/
theorem run_groups (m : GroupArgs) (hm : m.grouped = true) (calls : List Timed)
    (sends : Sends NewJob.GroupSound calls) :
    let q := run m calls
    let group := fun id => (q.hmget id).group.getD ""
    (∀ id, (id ∈ q.ready ↔ id ∈ q.groups.ready (group id)) ∧
      ∀ g, g ≠ group id → id ∉ q.groups.ready g) ∧
    ((∀ g, g ≠ "" → (q.groups.active g).getD 0 = q.active.members.countP fun id => group id = g) ∧
      q.groups.active "" = none ∧
      (m.concurrency > 0 → ∀ g, (q.groups.active g).getD 0 ≤ m.concurrency)) ∧
    (q.groups.list.Nodup ∧ ∀ g, g ∈ q.groups.list ↔ g ∈ q.groups.queued) ∧
    ∀ g, q.groups.hasSlot m g = true → (∃ id, id ∈ q.groups.ready g) → g ∈ q.groups.queued := by
  have grouped := (run_sane (m := m) calls sends).grouped hm
  have groupOf : ∀ id, (run m calls).groupOf id = ((run m calls).hmget id).group.getD "" := by
    intro id
    have sound : groupSound ((run m calls).hmget id).group = true := by
      cases was : (run m calls).job id with
      | none => simp [Board.hmget, was, groupSound]
      | some h =>
          rw [Board.hmget_of_job was]
          exact run_groupSound calls sends was
    unfold Board.groupOf JobHash.groupName
    cases named : ((run m calls).hmget id).group with
    | none => rfl
    | some g =>
        rw [named] at sound
        simp [sound]
  intro q group
  refine ⟨fun id => ⟨?_, ?_⟩, ⟨?_, grouped.turns.default, grouped.turns.capped⟩,
    ⟨grouped.turns.nodup, grouped.turns.listed⟩, ?_⟩
  · rw [grouped.mirror]
    exact ⟨fun mem => ⟨mem, groupOf id⟩, And.left⟩
  · intro g ne mem
    exact ne (((grouped.mirror g id).mp mem).2.symm.trans (groupOf id))
  · intro g named
    rw [grouped.count g named]
    simp only [groupOf]
    rfl
  · exact fun g slot jobs => grouped.turns.queued g (fun none => none) ⟨slot, jobs⟩

theorem run_groups_addAndClaim :
    ((run ⟨true, 2⟩ addAndClaim).groups.active "g").getD 0 ≤ 2 :=
  (run_groups ⟨true, 2⟩ rfl addAndClaim sends_addAndClaim).2.1.2.2 (by decide) "g"

end NxgtData.Queue
