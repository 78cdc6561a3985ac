import NxgtData.Queue.History

/-!
`ADD` and the add of a fire as paths of moves: a job is created, or a waiting
one is debounced, and nothing else moves.
-/
namespace NxgtData.Queue
open Decimal

variable {m : GroupArgs} {q : Keys} {now : Nat} {paused : Bool}

theorem NewJob.hashGroup_hash {j : NewJob} (now : Nat) (group : groupSound (some j.group) = true) :
    hashGroup (some (j.hash m now)) = if m.grouped then j.group else "" := by
  by_cases grouped : m.grouped = true <;> by_cases default : j.group = "" <;>
    simp [hashGroup, JobHash.groupName, NewJob.hash, grouped, default, group]

theorem NewJob.change {j : NewJob} :
    Change (.create j.id (j.hash m now)) none [] (some (j.hash m now)) := by
  refine .create ?_ rfl rfl rfl
  by_cases due : j.runAt now ≤ now <;> simp [NewJob.hash, due]

/-- The hashes written for the jobs that are sent. -/
def Writes (m : GroupArgs) (P : NewJob → Prop) (id : String) (h : JobHash) : Prop :=
  ∃ j now, P j ∧ j.id = id ∧ h = j.hash m now

theorem addJob_leads {P : NewJob → Prop} (now : Nat) (paused : Bool) {j : NewJob} (sent : P j)
    (group : groupSound (some j.group) = true) :
    Leads m (Writes m P) q.toBoard
      (if (addJob m now paused j q).1 then [.created j.id j.attempts] else [])
      (addJob m now paused j q).2.toBoard := by
  unfold addJob
  split
  next => exact .refl _
  next fresh =>
    have absent : q.job j.id = none := by simpa using fresh
    have stateOf : q.stateOf j.id = none := by simp [Board.stateOf, absent]
    have move : ∀ score, Move m q.toBoard (.create j.id (j.hash m now))
        (q.toBoard.shift m j.id (if m.grouped then j.group else "") (some (j.hash m now))
          score []) := by
      intro score
      rw [← NewJob.hashGroup_hash (m := m) now group]
      exact .shift score (by rw [Act.id, absent]; exact j.change) (by simp [Act.isStart])
        (by rw [Act.id, stateOf]; simp)
    have leads : ∀ score, Leads m (Writes m P) q.toBoard [.created j.id j.attempts]
        (q.toBoard.shift m j.id (if m.grouped then j.group else "") (some (j.hash m now))
          score []) := by
      intro score
      refine ⟨_, .single (move score), by simp [marks, Act.mark, NewJob.hash, number], ?_⟩
      intro id h mem
      cases List.mem_singleton.mp mem
      exact ⟨j, now, sent, rfl, rfl⟩
    dsimp only
    split
    next due =>
      have waits : (j.hash m now).state = some .waiting := by simp [NewJob.hash, due]
      have moved := leads (readyScore j.priority (q.seq + 1))
      rw [Board.shift_waiting waits, Board.leave_none stateOf, Board.announce_nil] at moved
      simp only [apply_ite Keys.toBoard, Keys.poke_toBoard, ite_self]
      exact moved
    next later =>
      have waits : (j.hash m now).state = some .delayed := by simp [NewJob.hash, later]
      have moved := leads (j.runAt now)
      rw [Board.shift_delayed waits, Board.leave_none stateOf, Board.announce_nil] at moved
      simp only [apply_ite Keys.toBoard, Keys.poke_toBoard, ite_self]
      exact moved

theorem job_of_waitingJob {b : Board} {id : String} (waits : waitingJob id b = true) :
    ∃ h, b.job id = some h ∧ h.attempt = some (toString 0) ∧
      (h.state = some .waiting ∨ h.state = some .delayed) := by
  unfold waitingJob at waits
  dsimp only at waits
  split at waits
  next => cases waits
  next priority =>
    split at waits
    next => cases waits
    next attempt =>
      split at waits
      next => cases waits
      next =>
        cases was : b.job id with
        | none => simp [Board.hmget, was] at priority
        | some h =>
            rw [Board.hmget_of_job was] at attempt waits
            refine ⟨h, rfl, not_not.mp attempt, ?_⟩
            simp only [Bool.or_eq_true, Bool.and_eq_true, decide_eq_true_eq] at waits
            exact waits.imp And.left And.left

theorem debounceJob_leads {Q : String → JobHash → Prop} {id : String} {j : AddJob}
    (hb : Sane m q.toBoard) (waits : waitingJob id q.toBoard = true) :
    Leads m Q q.toBoard [] (debounceJob m now paused id j q).toBoard := by
  obtain ⟨h, was, attempt, state⟩ := job_of_waitingJob waits
  have stateOf := Board.stateOf_of_job was
  let runAt := now + j.delayMs
  let h' := { h with data := some j.data, state := some .delayed, runAt := some (toString runAt) }
  have board : (debounceJob m now paused id j q).toBoard =
      { (q.toBoard.put id (some h')).readyRem m id h.groupName with
        delayed := q.delayed.add runAt id } := by
    have groupOf : (q.toBoard.put id (some h')).groupOf id = h.groupName := by
      rw [Board.groupOf_put]
      rfl
    simp only [debounceJob, Board.hset_of_job _ was, Keys.setDedupe]
    rw [groupOf]
    split <;> simp [Board.readyRem, Board.put, h', runAt]
  refine .single (a := .debounce id) ?_ (by simp)
  refine .of_shift runAt was
    (.debounce j.data (some (toString runAt)) state attempt)
    (by simp [Act.isStart]) (by simp) ?_
  rw [board, Board.shift_delayed rfl, Board.announce_nil]
  rcases state with state | state
  · rw [Act.id, Board.leave_waiting (stateOf.trans state), Board.groupOf_of_job was]
    rfl
  · have idle : id ∉ q.ready := fun mem => by
      have := (hb.placed.mem_place id .waiting).mp mem
      rw [stateOf, state] at this
      cases this
    have kept := Board.readyRem_idle (Grouped.unmirrored hb.grouped) idle h.groupName
    rw [Act.id, Board.leave_delayed (stateOf.trans state), Board.readyRem_put, kept,
      SortedSet.add_rem]
    rfl

theorem addOne_leads {P : NewJob → Prop} (now : Nat) (paused : Bool) {j : AddJob} (hb : Sane m q.toBoard)
    (sent : P j.toNewJob) (group : groupSound (some j.group) = true) :
    Leads m (Writes m P) q.toBoard ((addOne m now paused j q).1.marks j)
      (addOne m now paused j q).2.toBoard := by
  unfold addOne
  dsimp only
  split
  next id hit =>
    split
    next debounce =>
      have waits : waitingJob id q.toBoard = true := by
        rw [debounce] at hit
        exact (Option.filter_eq_some_iff.mp hit).2
      exact debounceJob_leads hb waits
    next => exact .refl _
  next hit =>
    have added := addJob_leads (m := m) (q := q) now paused sent group
    split
    next q' eq =>
      rw [eq] at added
      simp only [apply_ite Keys.toBoard, Keys.setDedupe, ite_self]
      exact added
    next q' eq =>
      rw [eq] at added
      exact added

theorem addAll_leads {P : NewJob → Prop} (jobs : List AddJob) (hb : Sane m q.toBoard)
    (sent : ∀ j ∈ jobs, P j.toNewJob) (group : ∀ j, P j → groupSound (some j.group) = true) :
    Leads m (Writes m P) q.toBoard (addMarks jobs (addAll m now paused jobs q).1)
      (addAll m now paused jobs q).2.toBoard := by
  induction jobs generalizing q with
  | nil => exact .refl _
  | cons j jobs ih =>
      have first := addOne_leads now paused hb (sent j List.mem_cons_self)
        (group _ (sent j List.mem_cons_self))
      have rest := ih (first.sane hb) fun j later => sent j (List.mem_cons_of_mem _ later)
      exact first.trans rest

theorem fire_leads {P : NewJob → Prop} {id : String} {due next attempts : Nat} {timeout : Int}
    (sent : ∀ data, P (occurrenceJob id due attempts timeout data)) :
    Leads m (Writes m P) q.toBoard
      ((Call.fire id due next attempts timeout).marks
        (orError .answer (fire m now id due next attempts timeout q).1))
      (fire m now id due next attempts timeout q).2.toBoard := by
  unfold fire
  split
  next => exact .refl _
  next =>
    split
    next => exact .refl _
    next =>
      split
      next => exact .refl _
      next =>
        dsimp only
        split
        next => exact .refl _
        next =>
          have added := addJob_leads (m := m) (q := q) now q.paused
            (sent ((q.scheduleHash id).data.getD "")) rfl
          cases new : (addJob m now q.paused (occurrenceJob id due attempts timeout
              ((q.scheduleHash id).data.getD "")) q).1 with
          | false => simpa [new, orError, Call.marks] using added
          | true =>
              rw [new] at added
              simp only [orError, Call.marks]
              exact added

end NxgtData.Queue
