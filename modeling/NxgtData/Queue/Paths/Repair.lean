import NxgtData.Queue.Paths.Settle

/-!
The scripts that act on one job at a time without a claim, as paths of moves:
what a worker does under its token, and what inspection and repair do to a job.
-/
namespace NxgtData.Queue
open Decimal

variable {m : GroupArgs} {Q : String → JobHash → Prop} {b : Board} {q : Keys} {now : Nat}
  {id token : String}

theorem put_self {h : JobHash} (was : b.job id = some h) : b.put id (some h) = b := by
  simp [Board.put, ← was]

theorem releaseOne_lost {q : Keys} (lost : (releaseOne m id token q).1 = false) :
    (releaseOne m id token q).2.2 = q := by
  unfold releaseOne at lost ⊢
  dsimp only at lost ⊢
  split
  next given => simp [given] at lost
  next => rfl

theorem releaseOne_move (hb : Sane m q.toBoard) (given : (releaseOne m id token q).1 = true) :
    (q.hmget id).token = some token ∧
      Move m q.toBoard (.release id) (releaseOne m id token q).2.2.toBoard := by
  unfold releaseOne at given ⊢
  dsimp only at given ⊢
  split
  next guard =>
    obtain ⟨held, -, trusted, started⟩ := guard
    obtain ⟨h, was, holds, active⟩ := hb.holds held
    have job : (q.toBoard.leave m id).job id = some h := by rw [Board.leave_job, was]
    rw [Board.hmget_of_job was] at trusted started
    refine ⟨held, ?_⟩
    simp only [Board.hmget_of_job was, ← groupName_of_sound trusted,
      Board.activeRem_eq_leave was active, Board.hset_of_job _ job, Board.hdel_put]
    refine .of_shift (readyScore (number h.priority) (q.seq + 1)) was
      (.release holds trusted started) (by simp [Act.isStart]) (by simp) ?_
    rw [Board.shift_waiting rfl, Board.announce_nil]
    rfl
  next guard => simp [guard] at given

theorem releaseOne_leads (id token : String) (hb : Sane m q.toBoard) :
    Leads m Q q.toBoard (if (releaseOne m id token q).1 then [.released id] else [])
      (releaseOne m id token q).2.2.toBoard := by
  cases given : (releaseOne m id token q).1 with
  | false =>
      rw [releaseOne_lost given]
      exact .refl _
  | true => exact .single (releaseOne_move hb given).2 (by simp)

theorem releaseAll_leads (jobs : List (String × String)) (hb : Sane m q.toBoard) :
    Leads m Q q.toBoard ((releaseAll m jobs q).1.map .released)
      (releaseAll m jobs q).2.2.toBoard := by
  induction jobs generalizing q with
  | nil => exact .refl _
  | cons job jobs ih =>
      have first := releaseOne_leads (Q := Q) job.1 job.2 hb
      have rest := first.trans (ih (first.sane hb))
      unfold releaseAll
      dsimp only
      cases given : (releaseOne m job.1 job.2 q).1 <;> rw [given] at rest <;> exact rest

theorem renew_leads {lease : Nat} (entries : List (String × String)) :
    Leads m Q b [] (renew now lease entries b).2 := by
  induction entries generalizing b with
  | nil => exact .refl b
  | cons entry entries ih =>
      obtain ⟨id, token⟩ := entry
      unfold renew
      split
      next held =>
        split
        next mem =>
          have was : b.job id = some (b.hmget id) := by
            cases was : b.job id with
            | none => simp [Board.hmget, was] at held
            | some h => rw [Board.hmget_of_job was]
          exact (Leads.single (Move.touch (now + lease) was held mem) (by simp)).trans ih
        next => exact ih
      next => exact ih

theorem progress_leads {value : String} (hb : Sane m b) :
    Leads m Q b [] (progress id token value b).2 := by
  unfold progress
  split
  next => exact .refl b
  next held =>
    obtain ⟨h, was, holds, -⟩ := hb.holds (not_not.mp held)
    refine .single (a := .progress id token) ?_ (by simp)
    rw [Board.hset_of_job _ was]
    exact .edit (by rw [Act.id, was]; exact .progress holds) was ⟨rfl, rfl, rfl⟩

theorem held_of_held (hb : Sane m b) (held : held now id token b = true) :
    ∃ h, b.job id = some h ∧ h.token = some token ∧ h.state = some .active := by
  simp only [Queue.held, Bool.and_eq_true, decide_eq_true_eq] at held
  exact hb.holds held.1

theorem stepBegin_leads {name : String} {lease : Nat} (hb : Sane m b) :
    Leads m Q b
      ((Call.stepBegin id token name lease).marks (.begun (stepBegin now id token name lease b).1))
      (stepBegin now id token name lease b).2 := by
  unfold stepBegin
  split
  next => exact .refl b
  next fenced =>
    obtain ⟨h, was, holds, active⟩ := held_of_held hb (by simpa using fenced)
    split
    next => exact .refl b
    next absent =>
      rw [Board.hmget_of_job was] at absent
      have begun : Move m b (.begun id token name) b := by
        have edit := Move.edit (m := m) (a := .begun id token name)
          (by rw [Act.id, was]; exact .begun holds absent) was ⟨rfl, rfl, rfl⟩
        rwa [Act.id, put_self was] at edit
      refine (Leads.single begun (by simp)).trans ?_
      split
      next =>
        have mem : id ∈ b.active := (hb.placed.mem_place id .active).mpr
          ((Board.stateOf_of_job was).trans active)
        exact .single (Move.touch (now + lease) was holds mem) (by simp)
      next => exact .refl b

theorem stepCommit_leads {name json : String} (hb : Sane m b) :
    Leads m Q b
      ((Call.stepCommit id token name json).marks (.answer (stepCommit now id token name json b).1))
      (stepCommit now id token name json b).2 := by
  unfold stepCommit
  split
  next => exact .refl b
  next fenced =>
    obtain ⟨h, was, holds, -⟩ := held_of_held hb (by simpa using fenced)
    refine .single (a := .commit id token name json) ?_ (by simp)
    rw [Board.hset_of_job _ was]
    exact .edit (by rw [Act.id, was]; exact .commit holds) was ⟨rfl, rfl, rfl⟩

theorem cancelJob_leads {freed : Bool} {b' : Board} (done : cancelJob m id b = some (freed, b')) :
    Leads m Q b [.canceled id] b' := by
  cases was : b.job id with
  | none => simp [cancelJob, Board.hmget, was] at done
  | some h =>
      have stateOf := Board.stateOf_of_job was
      have move : ∀ token,
          h.state = some .waiting ∨ h.state = some .delayed ∨ h.state = some .active →
          Move m b (.cancel id) (((b.leave m id).put id none).announce [.canceled id token]) :=
        fun token state => .of_shift 0 was (.cancel state) (by simp [Act.isStart]) (by simp)
          Board.shift_none.symm
      simp only [cancelJob, Board.hmget_of_job was, Board.groupOf_of_job was] at done
      refine .single (a := .cancel id) ?_ (by simp)
      split at done
      next state =>
        have moved := move none (Or.inl state)
        rw [Board.leave_waiting (stateOf.trans state), Board.groupOf_of_job was] at moved
        split at done <;> cases done
        exact moved
      next state =>
        have moved := move none (Or.inr (Or.inl state))
        rw [Board.leave_delayed (stateOf.trans state)] at moved
        split at done <;> cases done
        exact moved
      next state =>
        have moved := move h.token (Or.inr (Or.inr state))
        rw [← Board.activeRem_eq_leave was state] at moved
        split at done <;> cases done
        exact moved
      next => cases done

theorem cancel_leads :
    Leads m Q q.toBoard ((Call.cancel id).marks (.answer (cancel m id q).1))
      (cancel m id q).2.toBoard := by
  unfold cancel
  split
  next => exact .refl _
  next freed b' done =>
    simp only [apply_ite Keys.toBoard, Keys.wakeUp_toBoard, ite_self]
    exact cancelJob_leads done

theorem retry_leads {fresh : Bool} (hb : Sane m q.toBoard) :
    Leads m Q q.toBoard ((Call.retry id fresh).marks (.answer (retry m now id fresh q).1))
      (retry m now id fresh q).2.toBoard := by
  unfold retry
  dsimp only
  split
  next => exact .refl _
  next mem =>
    split
    next => exact .refl _
    next =>
      split
      next => exact .refl _
      next trusted =>
        obtain ⟨h, was, state⟩ := hb.placed.job_of_mem (s := .failed) (not_not.mp mem)
        have stateOf := (Board.stateOf_of_job was).trans state
        have job : (q.toBoard.leave m id).job id = some h := by rw [Board.leave_job, was]
        rw [Board.leave_failed stateOf] at job
        have hmget := Board.hmget_of_job was
        refine .single (a := .retry id fresh) ?_ (by simp)
        refine .of_shift (readyScore (number h.priority) (q.seq + 1)) was
          (.retry (some (toString now)) state (by simpa [hmget] using trusted))
          (by simp [Act.isStart]) (by simp) ?_
        rw [Board.shift_waiting rfl, Board.announce_nil, Act.id, Board.leave_failed stateOf]
        simp only [apply_ite Keys.toBoard, Keys.wakeUp_toBoard, ite_self, hmget,
          Board.hset_of_job _ job, Board.hdel_put, Board.groupOf_put, Keys.readyAgain]
        cases fresh with
        | false => rfl
        | true =>
            rw [if_pos rfl, Board.hdel_readyAdd, Board.hdel_put]
            rfl

theorem remove_leads (hb : Sane m b) : Leads m Q b [] (remove m id b).2 := by
  unfold remove
  split
  next => exact .refl b
  next idle =>
    obtain ⟨still, other⟩ := not_or.mp idle
    have cleared : ∀ s, b.stateOf id ≠ some s → (b.place s).rem id = b.place s := fun s ne =>
      SortedSet.rem_of_notMem fun mem => ne ((hb.placed.mem_place id s).mp mem)
    have keep : b.stateOf id ≠ some .waiting → b.readyRem m id (b.groupOf id) = b := fun ne =>
      Board.readyRem_idle (Grouped.unmirrored hb.grouped)
        (fun mem => ne ((hb.placed.mem_place id .waiting).mp mem)) _
    have left : { b.readyRem m id (b.groupOf id) with
        delayed := b.delayed.rem id
        active := b.active.rem id
        completed := b.completed.rem id
        failed := b.failed.rem id } = b.leave m id := by
      have places : ∀ s, (b.place s).rem id = (b.leave m id).place s := by
        intro s
        rw [hb.placed.place_leave]
        split
        next => rfl
        next ne => exact cleared s ne
      have groups : b.groups.readyRem m id (b.groupOf id) = (b.leave m id).groups := by
        cases state : b.stateOf id with
        | none =>
            rw [Board.leave_none state]
            exact congrArg Board.groups (keep (by simp [state]))
        | some s =>
            cases s with
            | waiting => rw [Board.leave_waiting state]; rfl
            | active => exact absurd ((hb.placed.mem_place id .active).mpr state) still
            | delayed | completed | failed =>
                simp only [Board.leave, state]
                exact congrArg Board.groups (keep (by simp [state]))
      exact Board.ext (Board.leave_job b id).symm (places .delayed) (places .waiting)
        (places .active) (places .completed) (places .failed) groups
        (Board.leave_events b id).symm
    have move : Move m b (.remove id) (b.shift m id "" none 0 []) :=
      .shift 0 (.remove ?_) (by simp [Act.isStart]) (by simp)
    · rw [Board.shift_none, Board.announce_nil, ← left] at move
      exact .single move (by simp)
    · intro h (was : b.job id = some h) active
      exact other (by rw [Board.hmget_of_job was, active])

end NxgtData.Queue
