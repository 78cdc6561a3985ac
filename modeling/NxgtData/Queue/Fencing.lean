import NxgtData.Queue.Tokens

/-!
The fence of the token. A script under a token touches a job only while the
ledger names that token its holder; a token settles once, and a job's life ends
with at most one event. The claim that `COMPLETE` and `FAIL` may carry is a claim
like any other, whatever came of the settle.
-/
namespace NxgtData.Queue
open Decimal Gcra

/-! What a script under a token may touch. -/

/-- Whether the call names the job under this token. -/
def Call.carries (id token : String) : Call → Prop
  | .complete i t _ _ _ _ _ _ | .fail i t _ _ _ _ _ _ | .progress i t _ | .stepCommit i t _ _ =>
      i = id ∧ t = token
  | .renew _ jobs | .release jobs => (id, token) ∈ jobs
  | _ => False

section Views
variable {m : GroupArgs} {b : Board} {q : Keys} {id : String}

theorem view_hset_of_ne {id' : String} (f : JobHash → JobHash) (ne : id ≠ id') :
    (b.hset id' f).view id = b.view id := by
  have job : (b.hset id' f).job id = b.job id := by simp [Board.hset, ne]
  have place : ∀ s, (b.hset id' f).place s = b.place s := fun s => by cases s <;> rfl
  simp only [Board.view, job, place]

theorem hmget_of_view {b' : Board} (same : b'.view id = b.view id) :
    b'.hmget id = b.hmget id := by
  have job : b'.job id = b.job id := congrArg Prod.fst same
  rw [Board.hmget, Board.hmget, job]

theorem progress_view {id' token value : String}
    (changed : (progress id' token value b).2.view id ≠ b.view id) :
    id' = id ∧ (b.hmget id).token = some token := by
  unfold progress at changed
  split at changed
  next => exact absurd rfl changed
  next held =>
    dsimp only at changed
    have own : id' = id := by
      by_contra ne
      exact changed (view_hset_of_ne _ (Ne.symm ne))
    subst own
    exact ⟨rfl, not_not.mp held⟩

theorem stepCommit_view {now : Nat} {id' token name json : String}
    (changed : (stepCommit now id' token name json b).2.view id ≠ b.view id) :
    id' = id ∧ (b.hmget id).token = some token := by
  unfold stepCommit at changed
  split at changed
  next => exact absurd rfl changed
  next fenced =>
    dsimp only at changed
    have own : id' = id := by
      by_contra ne
      exact changed (view_hset_of_ne _ (Ne.symm ne))
    subst own
    simp only [held, Bool.not_eq_true, Bool.not_eq_false', Bool.and_eq_true, decide_eq_true_eq]
      at fenced
    exact ⟨rfl, fenced.1⟩

theorem renew_view {now lease : Nat} (jobs : List (String × String))
    (changed : (renew now lease jobs b).2.view id ≠ b.view id) :
    ∃ token, (id, token) ∈ jobs ∧ (b.hmget id).token = some token := by
  induction jobs generalizing b with
  | nil => exact absurd rfl changed
  | cons job jobs ih =>
      obtain ⟨id', token⟩ := job
      unfold renew at changed
      split at changed
      next holds =>
        by_cases own : id' = id
        · subst own
          exact ⟨token, List.mem_cons_self, holds⟩
        · have same : (if id' ∈ b.active then
              { b with active := b.active.add (now + lease) id' } else b).view id = b.view id := by
            split
            next =>
              unfold Board.view
              congr 1
              funext s
              cases s with
              | active =>
                  change (b.active.add _ id').score id = b.active.score id
                  rw [SortedSet.score_add, if_neg (Ne.symm own)]
              | waiting | delayed | completed | failed => rfl
            next => rfl
          rw [← same] at changed
          obtain ⟨t, mem, held⟩ := ih changed
          exact ⟨t, List.mem_cons_of_mem _ mem, by rw [← hmget_of_view same, held]⟩
      next =>
        obtain ⟨t, mem, held⟩ := ih changed
        exact ⟨t, List.mem_cons_of_mem _ mem, held⟩

theorem releaseAll_view (jobs : List (String × String)) (hb : Sane m q.toBoard)
    (changed : (releaseAll m jobs q).2.2.view id ≠ q.view id) :
    ∃ token, (id, token) ∈ jobs ∧ (q.hmget id).token = some token := by
  induction jobs generalizing q with
  | nil => exact absurd rfl changed
  | cons job jobs ih =>
      obtain ⟨id', token⟩ := job
      change (releaseAll m jobs (releaseOne m id' token q).2.2).2.2.view id ≠ q.view id at changed
      cases given : (releaseOne m id' token q).1 with
      | false =>
          rw [releaseOne_lost given] at changed
          obtain ⟨t, mem, held⟩ := ih hb changed
          exact ⟨t, List.mem_cons_of_mem _ mem, held⟩
      | true =>
          obtain ⟨holds, move⟩ := releaseOne_move hb given
          by_cases own : id' = id
          · subst own
            exact ⟨token, List.mem_cons_self, holds⟩
          · have same := move.view_of_ne hb.placed (Ne.symm own)
            rw [← same] at changed
            obtain ⟨t, mem, held⟩ := ih (hb.move move) changed
            exact ⟨t, List.mem_cons_of_mem _ mem, by rw [← hmget_of_view same, held]⟩

end Views

/-! A life has one outcome: every event of a job costs it its place among the
waiting, delayed and active. -/

def JobState.live : JobState → Nat
  | .waiting | .delayed | .active => 1
  | .completed | .failed => 0

/-- 1 while the job waits, is delayed or is active. -/
def liveOf (o : Option JobHash) : Nat := ((o.bind JobHash.state).map JobState.live).getD 0

theorem liveOf_le (o : Option JobHash) : liveOf o ≤ 1 := by
  unfold liveOf
  cases o.bind JobHash.state with
  | none => simp
  | some s => cases s <;> simp [JobState.live]

namespace Change
variable {a : Act} {o o' : Option JobHash} {ev : List Event}

theorem publishes (change : Change a o ev o') : ∀ e ∈ ev, e.id = a.id := by
  cases change <;> simp [Event.id, Act.id]

theorem outcome (change : Change a o ev o') (ok : ∀ h, o = some h → h.Ok)
    (quiet : ∀ mk, a.mark = some mk → mk.restarts = false) :
    ev.length + liveOf o' ≤ liveOf o := by
  have running : ∀ {h : JobHash} {token : String}, o = some h → h.token = some token →
      liveOf o = 1 := by
    rintro h token rfl holds
    have active := (ok h rfl).2.mp (by simp [holds])
    simp [liveOf, active, JobState.live]
  cases change with
  | create | retry => exact absurd (quiet _ rfl) (by simp [Mark.restarts])
  | complete _ _ _ holds | vanish holds | retryLater _ _ holds | failFinal _ _ holds
  | release holds =>
      rw [running rfl holds]
      simp [liveOf, JobState.live]
  | progress | commit => simp [liveOf]
  | debounce _ _ state => rcases state with state | state <;> simp [liveOf, state, JobState.live]
  | refuse _ state | cancel state =>
      rcases state with state | state | state <;> simp [liveOf, state, JobState.live]
  | promote state | reclaim state | lapse _ state | start state =>
      simp [liveOf, state, JobState.live]
  | renew | begun | drop => simp
  | remove | trim => simp [liveOf]

end Change

/-- Along a path that neither creates nor retries the job, it has at most as
many events as it was live before. -/
theorem Leads.outcomes {m : GroupArgs} {Q : String → JobHash → Prop} {b b' : Board}
    {ms : List Mark} (h : Leads m Q b ms b') (hb : Sane m b) {id : String}
    (quiet : ∀ mk ∈ ms, mk.restarts = true → mk.id ≠ id) :
    ∃ new, b'.events = b.events ++ new ∧
      new.countP (fun e => e.id = id) + liveOf (b'.job id) ≤ liveOf (b.job id) := by
  obtain ⟨as, path, rfl, -⟩ := h
  induction path with
  | nil => exact ⟨[], by simp, by simp⟩
  | @cons b b₁ b' a as move path ih =>
      have parts : marks (a :: as) = marks [a] ++ marks as := marks_append [a] as
      rw [parts] at quiet
      obtain ⟨new, events, count⟩ :=
        ih (hb.move move) fun mk mem => quiet mk (List.mem_append_right _ mem)
      obtain ⟨ev, change, published⟩ := move.change
      refine ⟨ev ++ new, by rw [events, published, List.append_assoc], ?_⟩
      rw [List.countP_append]
      by_cases own : id = a.id
      · subst own
        have outcome := change.outcome (fun h was => hb.placed.ok was) fun mk marked => by
          have mem : mk ∈ marks [a] := by rw [marks_single marked]; exact List.mem_singleton_self mk
          by_contra restarts
          exact quiet mk (List.mem_append_left _ mem) (by simpa using restarts)
            (Act.mark_id marked)
        have all := List.countP_le_length (p := fun e => decide (e.id = a.id)) (l := ev)
        omega
      · have others : ev.countP (fun e => decide (e.id = id)) = 0 := by
          rw [List.countP_eq_zero]
          intro e mem
          have := change.publishes e mem
          simp only [decide_eq_true_eq]
          exact fun eq => own (eq.symm.trans this)
        rw [move.job_of_ne own] at count
        omega

/-- The claim a settle carries, when it carries one. -/
def Call.spliced : Call → Option Call
  | .complete _ _ _ _ lease claimToken _ rate | .fail _ _ _ _ _ lease claimToken rate =>
      if claimToken = "" then none else some (.claim lease rate [claimToken])
  | _ => none

section Stale
variable {m : GroupArgs} {q : Keys} {us : Nat} {id token : String}

/-- What is left of a stale settle: its claim. -/
theorem guarded_stale {script : Keys → Reply × Keys} {lease : Nat} {claimToken : String}
    {rate : Option Rate}
    (stale : ∀ q' : Keys, q'.toBoard = q.toBoard →
      (script q').2 = (settleClaim m us lease claimToken (rateOf rate) false q').2) :
    match if claimToken = "" then none else some (Call.claim lease rate [claimToken]) with
    | none => (guarded m script q).2.view id = q.view id
    | some claim => (guarded m script q).2 = (exec m us claim q).2 := by
  split
  next none =>
    have without : claimToken = "" := by
      by_contra with_
      simp [with_] at none
    unfold guarded
    split
    next => rfl
    next q' marker =>
      have same := (groupModeCheck_toBoard marker).1
      rw [stale q' same]
      simp [settleClaim, without, same]
  next claim some =>
    have with_ : claimToken ≠ "" := by
      rintro rfl
      simp at some
    rw [if_neg with_, Option.some.injEq] at some
    subst some
    change (guarded m script q).2 = (guarded m (fun q => answering .claimed
      (claim m us 1 lease [claimToken] (rateOf rate) q)) q).2
    unfold guarded
    cases marker : q.groupModeCheck m with
    | none => rfl
    | some q' =>
        refine (stale q' (groupModeCheck_toBoard marker).1).trans ?_
        simp [settleClaim, with_, answering]

theorem complete_stale {keepAge keepCount : Int} {lease : Nat} {claimToken result : String}
    {rate : Option Rate} (lost : (q.hmget id).token ≠ some token) :
    (complete m us id token keepAge keepCount lease claimToken result rate q).2 =
      (settleClaim m us lease claimToken rate false q).2 := by
  simp [complete, completeSettle, lost]

theorem fail_stale {error : String} {retryIn : Int} {keepFailed lease : Nat}
    {claimToken : String} {rate : Option Rate} (lost : (q.hmget id).token ≠ some token) :
    (fail m us id token error retryIn keepFailed lease claimToken rate q).2 =
      (settleClaim m us lease claimToken rate false q).2 := by
  simp [fail, failSettle, lost]

end Stale

/-- Token fencing, and one outcome a life. A call under tokens that do not hold
the job leaves the job alone, or does what the claim it carries does; no token
settles twice; and while a job is neither created nor retried, one event at most
is published for it. -/
theorem run_fenced (m : GroupArgs) (calls : List Timed) (sends : Sends NewJob.GroupSound calls)
    (fresh : FreshTokens calls) :
    let q := run m calls
    let past := history (log m calls)
    (∀ (us : Nat) (c : Call) (id : String), (∃ token, c.carries id token) →
      (∀ token, c.carries id token → holder id past ≠ some token) →
      match c.spliced with
      | none => (exec m us c q).2.view id = q.view id
      | some claim => (exec m us c q).2 = (exec m us claim q).2) ∧
    (settledTokens past).Nodup ∧
    ∀ before during id, calls = before ++ during →
      (∀ mk ∈ history (logFrom m during (run m before)), mk.restarts = true → mk.id ≠ id) →
      ∃ new, q.events = (run m before).events ++ new ∧ new.countP (fun e => e.id = id) ≤ 1 := by
  have kept := run_kept (m := m) calls sends
  intro q past
  have stale : ∀ {id token}, holder id past ≠ some token → (q.hmget id).token ≠ some token := by
    intro id token other held
    obtain ⟨h, was, holds, -⟩ := kept.sane.holds held
    exact other ((kept.tells id h was).token token holds)
  refine ⟨?_, settledTokens_nodup kept.lawful (handed_nodup fresh), ?_⟩
  · intro us c id carried lost
    cases c with
    | complete id' token =>
        obtain ⟨_, rfl, rfl⟩ := carried
        have gone := stale (lost _ ⟨rfl, rfl⟩)
        exact guarded_stale fun q' same => complete_stale (same ▸ gone)
    | fail id' token =>
        obtain ⟨_, rfl, rfl⟩ := carried
        have gone := stale (lost _ ⟨rfl, rfl⟩)
        exact guarded_stale fun q' same => fail_stale (same ▸ gone)
    | progress id' token value =>
        change (exec m us _ q).2.view id = q.view id
        by_contra changed
        obtain ⟨rfl, held⟩ := progress_view changed
        exact stale (lost token ⟨rfl, rfl⟩) held
    | stepCommit id' token name json =>
        change (exec m us _ q).2.view id = q.view id
        by_contra changed
        obtain ⟨rfl, held⟩ := stepCommit_view changed
        exact stale (lost token ⟨rfl, rfl⟩) held
    | renew lease entries =>
        change (exec m us _ q).2.view id = q.view id
        by_contra changed
        obtain ⟨token, mem, held⟩ := renew_view entries changed
        exact stale (lost token mem) held
    | release jobs =>
        change (exec m us _ q).2.view id = q.view id
        by_contra changed
        change (guarded m _ q).2.view id ≠ q.view id at changed
        unfold guarded at changed
        split at changed
        next => exact changed rfl
        next q' marker =>
          have same := (groupModeCheck_toBoard marker).1
          have board : (answering Reply.released (release m jobs q')).2.toBoard =
              (releaseAll m jobs q').2.2.toBoard := by
            simp only [answering, release, apply_ite Keys.toBoard, Keys.wakeUp_toBoard, ite_self]
          rw [board, ← same] at changed
          obtain ⟨token, mem, held⟩ := releaseAll_view jobs (same ▸ kept.sane) changed
          exact stale (lost token mem) (same ▸ held)
    | add | claim | cancel | retry | remove | pause | resume | stepBegin | fire | defer | upsert
    | unschedule | sync => exact absurd carried.choose_spec not_false
  · rintro before during id rfl quiet
    have sane := run_sane (m := m) before fun c mem => sends c (List.mem_append_left _ mem)
    have leads := runFrom_leads (m := m) during
      (fun c mem => sends c (List.mem_append_right _ mem)) (fun _ sound => sound) sane
    obtain ⟨new, events, count⟩ := leads.outcomes sane quiet
    have last : q = runFrom m during (run m before) := after_append (step m) before during _
    refine ⟨new, by rw [last, events], ?_⟩
    have := liveOf_le ((run m before).job id)
    omega

/-- A job is canceled while it runs, and added again under its id. -/
def cancelAndAdd : List Timed :=
  let job : AddJob := { id := "a", data := "null", priority := 0, attempts := 1 }
  [(0, .add [job]), (1000, .claim 30000 none ["t1"]), (2000, .cancel "a"), (3000, .add [job])]

theorem sends_cancelAndAdd : Sends NewJob.GroupSound cancelAndAdd := by
  intro c mem
  simp only [cancelAndAdd, List.mem_cons, List.not_mem_nil, or_false] at mem
  rcases mem with rfl | rfl | rfl | rfl
  · intro j mem
    rw [List.mem_singleton.mp mem]
    rfl
  · trivial
  · trivial
  · intro j mem
    rw [List.mem_singleton.mp mem]
    rfl

theorem run_fenced_cancelAndAdd :
    (exec ⟨false, 0⟩ 4000 (.progress "a" "t1" "1") (run ⟨false, 0⟩ cancelAndAdd)).2.view "a" =
      (run ⟨false, 0⟩ cancelAndAdd).view "a" :=
  (run_fenced ⟨false, 0⟩ cancelAndAdd sends_cancelAndAdd (by decide)).1 4000
    (.progress "a" "t1" "1") "a" ⟨"t1", rfl, rfl⟩
    (by rintro _ ⟨-, rfl⟩; decide)

/-- The late `COMPLETE` of the canceled job's worker settles nothing, but its
claim starts the new job of the same id. -/
theorem late_complete_claims :
    let late : Call := .complete "a" "t1" (-1) (-1) 30000 "t2" "" none
    let q := run ⟨false, 0⟩ cancelAndAdd
    FreshTokens (cancelAndAdd ++ [(4000, late)]) ∧ late.carries "a" "t1" ∧
      holder "a" (history (log ⟨false, 0⟩ cancelAndAdd)) ≠ some "t1" ∧
      (exec ⟨false, 0⟩ 4000 late q).2.view "a" ≠ q.view "a" := by
  refine ⟨by decide, ⟨rfl, rfl⟩, by decide, fun same => ?_⟩
  have before : ((run ⟨false, 0⟩ cancelAndAdd).hmget "a").token = none := by decide
  have after : ((exec ⟨false, 0⟩ 4000 (.complete "a" "t1" (-1) (-1) 30000 "t2" "" none)
      (run ⟨false, 0⟩ cancelAndAdd)).2.hmget "a").token = some "t2" := by decide
  rw [hmget_of_view same, before] at after
  cases after

end NxgtData.Queue
