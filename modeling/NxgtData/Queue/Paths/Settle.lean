import NxgtData.Queue.Paths.Claim

/-!
The settles as paths of moves, with the trims that follow them: a settle under a
stale token moves nothing, and one that settles moves its own job and then
deletes finished ones.
-/
namespace NxgtData.Queue
open Decimal Gcra

variable {m : GroupArgs} {Q : String → JobHash → Prop} {b : Board} {now : Nat}

/-- A trim of one of the two finished zsets. -/
structure Trims (place : Board → ZSet) (drop : Board → String → Board) (s : JobState) : Prop where
  finished : s = .completed ∨ s = .failed
  place_eq : ∀ b, place b = b.place s
  announce : ∀ b id ev, drop (b.announce ev) id = (drop b id).announce ev
  drop_eq : ∀ (m : GroupArgs) b id, b.stateOf id = some s →
    drop b id = b.shift m id "" none 0 []

theorem trims_completed : Trims Board.completed dropCompleted .completed where
  finished := Or.inl rfl
  place_eq := fun _ => rfl
  announce := fun _ _ _ => rfl
  drop_eq := by
    intro m b id state
    rw [Board.shift_none, Board.leave_completed state, Board.announce_nil]
    rfl

theorem trims_failed : Trims Board.failed dropFailed .failed where
  finished := Or.inr rfl
  place_eq := fun _ => rfl
  announce := fun _ _ _ => rfl
  drop_eq := by
    intro m b id state
    rw [Board.shift_none, Board.leave_failed state, Board.announce_nil]
    rfl

namespace Trims
variable {place : Board → ZSet} {drop : Board → String → Board} {s : JobState}

theorem drops_leads (t : Trims place drop s) (hb : Sane m b) (p : Nat → Bool) (limit : Nat) :
    Leads m Q b [] ((((place b).range p limit).map Prod.snd).foldl drop b) := by
  rw [t.place_eq]
  refine (Sane.foldl (m := m) id (R := fun b b' => Leads m Q b [] b') (I := fun _ => True) s .refl
    .trans (fun b id hb _ mem => ?_) _ ((b.place s).nodup_range p limit) hb trivial
    fun id mem => ?_).1
  · obtain ⟨h, was, state⟩ := hb.placed.job_of_mem mem
    have move : Move m b (.trim id) (drop b id) := by
      rw [t.drop_eq m b id ((Board.stateOf_of_job was).trans state)]
      refine .of_shift 0 was (.trim ?_) (by simp [Act.isStart]) (by simp) rfl
      rcases t.finished with rfl | rfl
      · exact Or.inl state
      · exact Or.inr state
    exact ⟨⟨_, rfl, move⟩, .single move (by simp), trivial⟩
  · obtain ⟨⟨score, id⟩, ranged, rfl⟩ := List.mem_map.mp mem
    exact SortedSet.mem_iff_score.mpr ⟨score, (SortedSet.mem_range ranged).1⟩

theorem trim_leads (t : Trims place drop s) (hb : Sane m b) (now age count : Int) :
    Leads m Q b [] (trim place drop now age count b) := by
  have old := t.drops_leads (Q := Q) hb (fun score => (score : Int) < now - age) 100
  unfold trim
  dsimp only
  split
  next =>
    split
    next => exact old.trans (t.drops_leads (old.sane hb) _ _)
    next => exact old
  next => exact old

theorem foldl_announce (t : Trims place drop s) (ids : List String) (ev : List Event) :
    ids.foldl drop (b.announce ev) = (ids.foldl drop b).announce ev := by
  induction ids generalizing b with
  | nil => rfl
  | cons id ids ih => rw [List.foldl_cons, t.announce, ih, List.foldl_cons]

/-- What is published before a trim might as well be published after it. -/
theorem trim_announce (t : Trims place drop s) (now age count : Int) (ev : List Event) :
    trim place drop now age count (b.announce ev) =
      (trim place drop now age count b).announce ev := by
  have same : ∀ b : Board, place (b.announce ev) = place b := by
    intro b
    rw [t.place_eq, t.place_eq]
    cases s <;> rfl
  unfold trim
  simp only [same, t.foldl_announce]
  split
  · split <;> rfl
  · rfl

end Trims

/-- Whoever holds a job's token holds an active job. -/
theorem Sane.holds (hb : Sane m b) {id token : String} (holds : (b.hmget id).token = some token) :
    ∃ h, b.job id = some h ∧ h.token = some token ∧ h.state = some .active := by
  cases was : b.job id with
  | none => simp [Board.hmget, was] at holds
  | some h =>
      rw [Board.hmget_of_job was] at holds
      exact ⟨h, rfl, holds, (hb.placed.token_iff id h was).mp (by simp [holds])⟩

/-- A job taken out of `active` under the group its hash names has left. -/
theorem Board.activeRem_eq_leave {id : String} {h : JobHash} (was : b.job id = some h)
    (active : h.state = some .active) : (b.activeRem m id h.groupName).2 = b.leave m id := by
  rw [Board.leave_active ((Board.stateOf_of_job was).trans active), Board.groupOf_of_job was]

theorem completeSettle_leads (now : Nat) (id token : String) (keepAge keepCount : Int)
    (result : String) (hb : Sane m b) :
    Leads m Q b
      (if (completeSettle m now id token keepAge keepCount result b).1 then [.settled id token]
        else [])
      (completeSettle m now id token keepAge keepCount result b).2.2 := by
  unfold completeSettle
  split
  next => exact .refl b
  next held =>
    obtain ⟨h, was, holds, active⟩ := hb.holds (not_not.mp held)
    have job : (b.leave m id).job id = some h := by rw [Board.leave_job, was]
    simp only [Board.groupOf_of_job was, Board.activeRem_eq_leave was active, ite_true]
    split
    next =>
      have move : Move m b (.complete id token)
          (((b.leave m id).del id).announce [.completed id result]) :=
        .of_shift 0 was (.vanish holds) (by simp [Act.isStart]) (by simp) Board.shift_none.symm
      have trims := trims_completed.trim_leads (Q := Q) (hb.move move) now 0 0
      rw [trims_completed.trim_announce] at trims
      exact (Leads.single move (by simp)).trans trims
    next =>
      have move := Move.of_shift (m := m) now was (.complete result
        (some (toString now)) (if result ≠ "" then some result else h.result) holds rfl)
        (by simp [Act.isStart]) (by simp) rfl
      rw [Board.shift_completed rfl] at move
      have trims := trims_completed.trim_leads (Q := Q) (hb.move move) now keepAge keepCount
      rw [trims_completed.trim_announce] at trims
      simp only [Board.hset_of_job _ job, Board.hdel_put]
      exact (Leads.single move (by simp)).trans trims

theorem failSettle_leads (now : Nat) (id token error : String) (retryIn : Int) (keepFailed : Nat)
    (hb : Sane m b) :
    Leads m Q b
      (if (failSettle m now id token error retryIn keepFailed b).1.settled then
        [.settled id token] else [])
      (failSettle m now id token error retryIn keepFailed b).2 := by
  unfold failSettle
  dsimp only
  split
  next => exact .refl b
  next held =>
    obtain ⟨h, was, holds, active⟩ := hb.holds (not_not.mp held)
    have job : (b.leave m id).job id = some h := by rw [Board.leave_job, was]
    simp only [Board.groupOf_of_job was, Board.activeRem_eq_leave was active,
      Board.hmget_of_job was, Board.hdel_of_job _ job, Board.hset_put]
    split
    next retries =>
      refine .single (a := .fail id token) ?_ (by simp)
      refine .of_shift (now + retryIn.toNat) was (.retryLater (some error)
        (some (toString (now + retryIn.toNat))) holds retries.2.1 retries.2.2)
        (by simp [Act.isStart]) (by simp) ?_
      rw [Board.shift_delayed rfl, Board.announce_nil]
      rfl
    next =>
      have move := Move.of_shift (m := m) now was (.failFinal error (some (toString now))
        holds) (by simp [Act.isStart]) (by simp) rfl
      rw [Board.shift_failed rfl] at move
      have trims := trims_failed.trim_leads (Q := Q) (hb.move move) now keepFailed (-1)
      rw [trims_failed.trim_announce] at trims
      exact (Leads.single move (by simp)).trans trims

theorem settleClaim_leads {us lease : Nat} {claimToken : String} {rate : Option Rate}
    {freed : Bool} {q : Keys} (hb : Sane m q.toBoard) :
    Leads m Q q.toBoard (settleClaim m us lease claimToken rate freed q).1.marks
      (settleClaim m us lease claimToken rate freed q).2.toBoard := by
  unfold settleClaim
  split
  next => exact claim_leads us 1 lease [claimToken] rate hb
  next =>
    simp only [apply_ite Keys.toBoard, Keys.wakeUp_toBoard, ite_self]
    exact .refl _

theorem complete_leads {us lease : Nat} {id token claimToken result : String}
    {keepAge keepCount : Int} {rate : Option Rate} {q : Keys} (hb : Sane m q.toBoard) :
    let r := complete m us id token keepAge keepCount lease claimToken result rate q
    Leads m Q q.toBoard (settleMarks r.1.1 id token r.1.2) r.2.toBoard := by
  have settled := completeSettle_leads (Q := Q) (us / 1000) id token keepAge keepCount result hb
  exact settled.trans (settleClaim_leads (q := { q with toBoard := _ }) (settled.sane hb))

theorem fail_leads {us keepFailed lease : Nat} {id token error claimToken : String}
    {retryIn : Int} {rate : Option Rate} {q : Keys} (hb : Sane m q.toBoard) :
    let r := fail m us id token error retryIn keepFailed lease claimToken rate q
    Leads m Q q.toBoard (settleMarks r.1.1 id token r.1.2.2) r.2.toBoard := by
  have settled := failSettle_leads (Q := Q) (us / 1000) id token error retryIn keepFailed hb
  simp only [fail, apply_ite Keys.toBoard, Keys.wakeUp_toBoard, ite_self]
  exact settled.trans (settleClaim_leads (q := { q with toBoard := _ }) (settled.sane hb))

end NxgtData.Queue
