import NxgtData.Queue.Wake

/-!
A paused queue gets no token. Every script but `RESUME` leaves the list `wake` as it is, or
empties it, while `paused` exists; but for a `FAIL` whose retry comes before every delayed
job, which leaves a token without a look at `paused`.
-/
namespace NxgtData.Queue
open Decimal Gcra

variable {m : GroupArgs} {q q' : Keys}

section Scripts
variable {now : Nat} {id : String}

theorem unless_paused (paused : q.paused = true) (same : q'.signals = q.signals)
    (claimable : Bool) :
    (if claimable && !q'.paused then q'.wakeUp else q').signals = q.signals := by
  have still : q'.paused = true := (congrArg (·.2.1) same).trans paused
  rw [still, Bool.not_true, Bool.and_false]
  exact same

theorem addJob_signals (now : Nat) (j : NewJob) :
    (addJob m now true j q).2.signals = q.signals := by
  unfold addJob
  split
  · rfl
  · simp only [Keys.poke, if_true, ite_self]
    split <;> rfl

theorem debounceJob_signals (j : AddJob) :
    (debounceJob m now true id j q).signals = q.signals := by
  simp only [debounceJob, Keys.poke, if_true, ite_self]
  rfl

theorem addOne_signals (now : Nat) (j : AddJob) :
    (addOne m now true j q).2.signals = q.signals := by
  have added := addJob_signals (m := m) (q := q) now j.toNewJob
  unfold addOne
  dsimp only
  split
  · split
    · exact debounceJob_signals j
    · rfl
  · split
    next eq =>
      rw [eq] at added
      dsimp only
      split
      · exact added
      · exact added
    next eq =>
      rw [eq] at added
      exact added

theorem addAll_signals (jobs : List AddJob) :
    (addAll m now true jobs q).2.signals = q.signals := by
  induction jobs generalizing q with
  | nil => rfl
  | cons j rest ih => exact ih.trans (addOne_signals now j)

theorem fire_signals {due next attempts : Nat} {timeout : Int} (paused : q.paused = true) :
    (fire m now id due next attempts timeout q).2.signals = q.signals := by
  unfold fire
  rw [paused]
  split
  · rfl
  · split
    · rfl
    · split
      · rfl
      · dsimp only
        split
        · rfl
        · exact addJob_signals now _

theorem release_signals (jobs : List (String × String)) (paused : q.paused = true) :
    (release m jobs q).2.signals = q.signals := by
  unfold release
  exact unless_paused paused (releaseAll_opens jobs).1 _

theorem cancel_signals (paused : q.paused = true) : (cancel m id q).2.signals = q.signals := by
  unfold cancel
  split
  · rfl
  next freed b _ => exact @unless_paused _ { q with toBoard := b } paused rfl freed

theorem retry_signals {fresh : Bool} (paused : q.paused = true) :
    (retry m now id fresh q).2.signals = q.signals := by
  unfold retry
  dsimp only
  split
  · rfl
  · split
    · rfl
    · split
      · rfl
      · refine unless_paused paused ?_ _
        split <;> rfl

/-- A claim on a paused queue pops nothing, and leaves the list empty. -/
theorem claim_paused {us n lease : Nat} {tokens : List String} {rate : Option Rate}
    (paused : q.paused = true) :
    (claim m us n lease tokens rate q).2.wake = 0 ∧
      (claim m us n lease tokens rate q).2.delayed = (claimReady m (us / 1000) q).q.delayed := by
  have still : (claimReady m (us / 1000) q).q.paused = true :=
    (claimReady_keeps (f := Keys.paused) (fun _ _ _ => rfl) (us / 1000)).trans paused
  have pops : claimPop m (us / 1000) us n lease tokens rate (claimReady m (us / 1000) q) =
      claimReady m (us / 1000) q := by
    simp only [claimPop, admitted, still, if_true, Nat.lt_irrefl, gt_iff_lt, false_and, if_false]
  have charges : ∀ q : Keys, q.paused = true → ∀ k,
      (charge us rate k q).paused = true ∧ (charge us rate k q).delayed = q.delayed := by
    intro q paused k
    unfold charge
    split
    · exact ⟨paused, rfl⟩
    · split
      · exact ⟨paused, rfl⟩
      · exact ⟨paused, rfl⟩
  obtain ⟨charged, same⟩ := charges _ still (claimReady m (us / 1000) q).jobs.length
  simp only [claim, pops, settleWake, charged, Bool.not_true, Bool.false_and, Bool.false_eq_true,
    if_false]
  exact ⟨trivial, same⟩

/-! Which delayed jobs a claim leaves so. -/

theorem activeRem_delayed (b : Board) (id g : String) :
    (b.activeRem m id g).2.delayed = b.delayed := by
  unfold Board.activeRem
  split <;> rfl

theorem notMem_activeRem (b : Board) (id g : String) : id ∉ (b.activeRem m id g).2.active := by
  unfold Board.activeRem
  split
  · exact fun mem => (SortedSet.mem_rem.mp mem).2 rfl
  next out => exact out

theorem refuse_delayed (b : Board) : (b.refuse m now id).delayed = b.delayed.rem id := by
  unfold Board.refuse
  dsimp only
  split
  · rw [activeRem_delayed]
    rfl
  · change ((Board.activeRem m id _ _).2.delayed) = _
    rw [activeRem_delayed]
    rfl

theorem reclaimOne_delayed (st : Claiming) :
    (reclaimOne m now st id).q.delayed = st.q.delayed ∨
      (reclaimOne m now st id).q.delayed = st.q.delayed.rem id := by
  unfold reclaimOne
  dsimp only
  split
  · exact .inr (refuse_delayed _)
  · left
    split
    · exact activeRem_delayed st.q.toBoard id _
    · exact activeRem_delayed st.q.toBoard id _

theorem promoteOne_delayed (st : Claiming) :
    (promoteOne m now st id).q.delayed = st.q.delayed.rem id := by
  unfold promoteOne
  dsimp only
  split
  · rw [refuse, refuse_delayed]
  · rfl

/-- Reclaiming other jobs leaves a delayed job where it is, and delays none. -/
theorem reclaim_delayed (ids : List String) (st : Claiming) (other : String) :
    let later := ids.foldl (reclaimOne m now) st
    (other ∉ ids → later.q.delayed.score other = st.q.delayed.score other) ∧
      ∀ score, later.q.delayed.score other = some score →
        st.q.delayed.score other = some score := by
  induction ids generalizing st with
  | nil => exact ⟨fun _ => rfl, fun _ is => is⟩
  | cons first rest ih =>
      obtain ⟨same, shrinks⟩ := ih (reclaimOne m now st first)
      rw [List.foldl_cons]
      rcases @reclaimOne_delayed m now first st with kept | gone
      · rw [kept] at same shrinks
        exact ⟨fun out => same fun mem => out (List.mem_cons_of_mem _ mem), shrinks⟩
      · simp only [gone, SortedSet.score_rem] at same shrinks
        refine ⟨fun out => ?_, fun score is => ?_⟩
        · rw [same fun mem => out (List.mem_cons_of_mem _ mem),
            if_neg fun is : other = first => out (is ▸ List.mem_cons_self)]
        · have before := shrinks score is
          split at before
          · exact absurd before nofun
          · exact before

theorem promote_delayed (ids : List String) (st : Claiming) :
    (ids.foldl (promoteOne m now) st).q.delayed =
      ids.foldl (fun z id => z.rem id) st.q.delayed := by
  induction ids generalizing st with
  | nil => rfl
  | cons first rest ih => rw [List.foldl_cons, ih, promoteOne_delayed, List.foldl_cons]

/-- The head of `delayed` stays there over a claim's promotion exactly if it is not due. -/
theorem claimReady_delayed {runAt : Nat} (idle : id ∉ q.active)
    (score : q.delayed.score id = some runAt)
    (head : ∀ other s, q.delayed.score other = some s → other ≠ id → runAt < s)
    (due : now ≤ runAt) :
    id ∈ (claimReady m now q).q.delayed ↔ now < runAt := by
  let reclaimed := reclaim m now { q }
  have kept := @reclaim_delayed m now
    ((q.active.range (· < now) 100).map Prod.snd) { q }
  have there : reclaimed.q.delayed.score id = some runAt := by
    refine ((kept id).1 fun mem => ?_).trans score
    obtain ⟨⟨s, a⟩, listed, rfl⟩ := List.mem_map.mp mem
    exact idle (SortedSet.mem_iff_score.mpr ⟨s, (SortedSet.mem_range listed).1⟩)
  have promoted : (claimReady m now q).q.delayed =
      ((reclaimed.q.delayed.range (· ≤ now) 1000).map Prod.snd).foldl
        (fun z id => z.rem id) reclaimed.q.delayed := promote_delayed _ _
  rw [promoted, SortedSet.mem_foldl_rem]
  constructor
  · intro ⟨_, out⟩
    refine Nat.lt_of_le_of_ne due fun is => out ?_
    refine SortedSet.mem_range_of_only there (by simp [is]) fun other s was pass => ?_
    refine Decidable.byContradiction fun differs => ?_
    have later := head other s ((kept other).2 s was) differs
    have early : s ≤ now := of_decide_eq_true pass
    omega
  · intro after
    refine ⟨SortedSet.mem_iff_score.mpr ⟨runAt, there⟩, fun mem => ?_⟩
    obtain ⟨⟨s, a⟩, listed, rfl⟩ := List.mem_map.mp mem
    obtain ⟨was, pass⟩ := SortedSet.mem_range listed
    have same : s = runAt := Option.some.inj (was.symm.trans there)
    have early : s ≤ now := of_decide_eq_true pass
    omega

end Scripts

theorem wake_of_signals (same : q'.signals = q.signals) : q'.wake ≤ q.wake :=
  (congrArg Prod.fst same).le

/-- A `FAIL` that takes and retries its job earlier than any delayed one. -/
def RetriesFirst (now : Nat) (id token : String) (retryIn : Int) (b : Board) : Prop :=
  let f := b.hmget id
  f.token = some token ∧ retryIn ≥ 0 ∧ sound { f with timeout := none, group := none } ∧
    number f.attempt < number f.attempts ∧ Keys.isHead b.delayed (now + retryIn.toNat)

section Fail
variable {us keepFailed lease : Nat} {id token error claimToken : String} {retryIn : Int}
  {rate : Option Rate} {b : Board}

theorem isHead_lt {z : ZSet} {runAt : Nat} (head : Keys.isHead z runAt = true) {other : String}
    {s : Nat} (was : z.score other = some s) : runAt < s := by
  unfold Keys.isHead at head
  split at head
  next none_ =>
    have out := SortedSet.first_eq_none.mp none_ other
    exact absurd (SortedSet.mem_iff_score.mpr ⟨s, was⟩) out
  next score _ first =>
    exact Nat.lt_of_lt_of_le (of_decide_eq_true head) (SortedSet.first_le first was)

/-- What a settle says of the head of `delayed`, and where it leaves the job then. -/
theorem failSettle_headWake {now : Nat} :
    ((failSettle m now id token error retryIn keepFailed b).1.headWake = true ↔
      RetriesFirst now id token retryIn b) ∧
    (RetriesFirst now id token retryIn b →
      (failSettle m now id token error retryIn keepFailed b).2.delayed =
          b.delayed.add (now + retryIn.toNat) id ∧
        id ∉ (failSettle m now id token error retryIn keepFailed b).2.active) := by
  have delayed := activeRem_delayed (m := m) b id (b.groupOf id)
  have idle := notMem_activeRem (m := m) b id (b.groupOf id)
  unfold failSettle RetriesFirst
  dsimp only
  split
  next lost =>
    exact ⟨iff_of_false Bool.false_ne_true fun h => lost h.1, fun h => absurd h.1 lost⟩
  next held =>
    rw [not_ne_iff] at held
    split
    next retries =>
      refine ⟨?_, fun _ => ⟨?_, idle⟩⟩
      · change Keys.isHead (b.activeRem m id (b.groupOf id)).2.delayed _ = true ↔ _
        rw [delayed]
        exact ⟨fun head => ⟨held, retries.1, retries.2.1, retries.2.2, head⟩,
          fun h => h.2.2.2.2⟩
      · change (b.activeRem m id (b.groupOf id)).2.delayed.add _ id = _
        rw [delayed]
    next final =>
      exact ⟨iff_of_false Bool.false_ne_true fun h => final ⟨h.2.1, h.2.2.1, h.2.2.2.1⟩,
        fun h => absurd ⟨h.2.1, h.2.2.1, h.2.2.2.1⟩ final⟩

/-- A `FAIL` on a paused queue leaves a token exactly if it retries first, and its claim does not
take the job out of `delayed` again. -/
theorem fail_wake (paused : q.paused = true) :
    (fail m us id token error retryIn keepFailed lease claimToken rate q).2.wake ≤ q.wake ↔
      ¬(RetriesFirst (us / 1000) id token retryIn q.toBoard ∧ (claimToken = "" ∨ retryIn > 0) ∧
        q.wake = 0) := by
  obtain ⟨head, left⟩ := @failSettle_headWake m keepFailed id token error retryIn q.toBoard (us / 1000)
  unfold fail
  dsimp only
  generalize failSettle m (us / 1000) id token error retryIn keepFailed q.toBoard = settled
    at head left
  obtain ⟨s, b⟩ := settled
  dsimp only at head left ⊢
  -- The token the settle or its claim leaves, and whether the job is still delayed.
  have after : (settleClaim m us lease claimToken rate s.freed { q with toBoard := b }).2.wake ≤
        q.wake ∧ (RetriesFirst (us / 1000) id token retryIn q.toBoard →
      (id ∈ (settleClaim m us lease claimToken rate s.freed
        { q with toBoard := b }).2.delayed ↔ claimToken = "" ∨ retryIn > 0)) := by
    unfold settleClaim
    by_cases carries : claimToken = ""
    · rw [if_neg (not_not_intro carries)]
      dsimp only
      rw [paused, Bool.not_true, Bool.and_false, if_neg Bool.false_ne_true]
      refine ⟨le_rfl, fun first => iff_of_true ?_ (.inl carries)⟩
      change id ∈ b.delayed
      rw [(left first).1]
      exact SortedSet.mem_add.mpr (.inl rfl)
    · rw [if_pos carries]
      obtain ⟨none_, delayed⟩ := @claim_paused m { q with toBoard := b } us 1 lease [claimToken] rate
        paused
      refine ⟨none_ ▸ Nat.zero_le _, fun first => ?_⟩
      obtain ⟨add, idle⟩ := left first
      rw [delayed, @claimReady_delayed m _ _ _ (us / 1000 + retryIn.toNat) idle ?_ ?_ (by omega)]
      · have := first.2.1
        simp only [carries, false_or]
        omega
      · change b.delayed.score id = _
        rw [add, SortedSet.score_add, if_pos rfl]
      · intro other t was differs
        change b.delayed.score other = _ at was
        rw [add, SortedSet.score_add, if_neg differs] at was
        exact isHead_lt first.2.2.2.2 was
  generalize (settleClaim m us lease claimToken rate s.freed { q with toBoard := b }).2 = q'
    at after ⊢
  obtain ⟨le, there⟩ := after
  by_cases first : RetriesFirst (us / 1000) id token retryIn q.toBoard
  · rw [head.mpr first, Bool.true_and]
    by_cases stays : claimToken = "" ∨ retryIn > 0
    · rw [decide_eq_true ((there first).mpr stays), if_pos rfl]
      have woken : q'.wakeUp.wake = max 1 q'.wake := congrArg Prod.fst (wakeUp_signals q')
      simp only [first, stays, true_and, woken]
      omega
    · rw [decide_eq_false (mt (there first).mp stays), if_neg Bool.false_ne_true]
      exact iff_of_true le fun h => stays h.2.1
  · have asleep : s.headWake = false := Bool.eq_false_iff.mpr (mt head.mp first)
    rw [asleep, Bool.false_and, if_neg Bool.false_ne_true]
    exact iff_of_true le fun h => first h.1

/-- Neither a settle's claim nor the slot it frees leaves a token. -/
theorem settleClaim_wake {freed : Bool} (paused : q.paused = true) :
    (settleClaim m us lease claimToken rate freed { q with toBoard := b }).2.wake ≤ q.wake := by
  unfold settleClaim
  split
  · exact (claim_paused (q := { q with toBoard := b }) paused).1 ▸ Nat.zero_le _
  · exact wake_of_signals (@unless_paused _ { q with toBoard := b } paused rfl freed)

end Fail

/-- The one call that leaves a token on a paused queue: a `FAIL` whose retry comes first. -/
def EarlyRetry (m : GroupArgs) (c : Timed) (q : Keys) : Prop :=
  match c.2 with
  | .fail id token _ retryIn _ _ claimToken _ =>
      RetriesFirst (c.1 / 1000) id token retryIn q.toBoard ∧ (claimToken = "" ∨ retryIn > 0) ∧
        q.wake = 0 ∧ (q.groupsMode = none ∨ q.groupsMode = some m.mode)
  | _ => False

/-- A script behind the marker check, when it leaves no token past the check. -/
theorem guarded_wake {script : Keys → Reply × Keys} (paused : q.paused = true)
    (quiet : ∀ q : Keys, q.paused = true → (script q).2.wake ≤ q.wake) :
    (guarded m script q).2.wake ≤ q.wake := by
  unfold guarded
  split
  · exact le_rfl
  next q' marker =>
    obtain ⟨-, wake, same⟩ := groupModeCheck_toBoard marker
    exact wake ▸ quiet q' (same.trans paused)

/-- On a paused queue every script but `RESUME` leaves no token that was not there, unless it
is a `FAIL` whose retry comes before every delayed job. -/
theorem exec_silent (us : Nat) (c : Call) (paused : q.paused = true) (other : c ≠ .resume) :
    (exec m us c q).2.wake ≤ q.wake ↔ ¬EarlyRetry m (us, c) q := by
  have quiet : (exec m us c q).2.wake ≤ q.wake → ¬EarlyRetry m (us, c) q →
      ((exec m us c q).2.wake ≤ q.wake ↔ ¬EarlyRetry m (us, c) q) := iff_of_true
  cases c with
  | add jobs =>
      refine quiet (guarded_wake paused fun q paused => wake_of_signals ?_) id
      change (addAll m _ q.paused jobs q).2.signals = _
      rw [paused]
      exact addAll_signals jobs
  | claim lease rate tokens =>
      exact quiet (guarded_wake paused fun q paused =>
        (claim_paused paused).1 ▸ Nat.zero_le _) id
  | complete id token keepAge keepCount lease claimToken result rate =>
      refine quiet (guarded_wake paused fun q paused => ?_) fun h => h
      change (settleClaim m us lease claimToken (rateOf rate) _ { q with toBoard := _ }).2.wake ≤ _
      exact settleClaim_wake paused
  | fail id token error retryIn keepFailed lease claimToken rate =>
      unfold exec EarlyRetry guarded
      dsimp only
      split
      next refused =>
        refine iff_of_true le_rfl fun h => ?_
        unfold Keys.groupModeCheck at refused
        rcases h.2.2.2 with mode | mode <;> simp [mode] at refused
      next q' marker =>
        obtain ⟨board, wake, same⟩ := groupModeCheck_toBoard marker
        have passes : q.groupsMode = none ∨ q.groupsMode = some m.mode := by
          unfold Keys.groupModeCheck at marker
          split at marker
          next held mode =>
            refine .inr (mode.trans (congrArg some ?_))
            refine Decidable.byContradiction fun differs => ?_
            rw [if_pos differs] at marker
            exact absurd marker nofun
          next mode => exact .inl mode
        have silent := @fail_wake m _ us keepFailed lease id token error claimToken retryIn
          (rateOf rate) (same.trans paused)
        rw [wake, board] at silent
        refine silent.trans (not_congr ?_)
        exact ⟨fun h => ⟨h.1, h.2.1, h.2.2, passes⟩, fun h => ⟨h.1, h.2.1, h.2.2.1⟩⟩
  | renew | progress | stepBegin | stepCommit => exact quiet le_rfl fun h => h
  | release jobs =>
      exact quiet (guarded_wake paused fun q paused =>
        wake_of_signals (release_signals jobs paused)) id
  | cancel id =>
      exact quiet (guarded_wake paused fun q paused => wake_of_signals (cancel_signals paused))
        fun h => h
  | retry id fresh =>
      exact quiet (guarded_wake paused fun q paused => wake_of_signals (retry_signals paused))
        fun h => h
  | remove id => exact quiet (guarded_wake paused fun q paused => le_rfl) fun h => h
  | pause => exact quiet le_rfl fun h => h
  | resume => exact absurd rfl other
  | fire id due next attempts timeout =>
      exact quiet (guarded_wake paused fun q paused => wake_of_signals (fire_signals paused))
        fun h => h
  | defer id due untl =>
      exact quiet (wake_of_signals (defer_keeps unscheduling_signals id due untl)) fun h => h
  | upsert s => exact quiet (wake_of_signals (upsert_keeps unscheduling_signals s)) fun h => h
  | unschedule id =>
      exact quiet (wake_of_signals (unschedule_keeps unscheduling_signals id)) fun h => h
  | sync list => exact quiet (wake_of_signals (sync_keeps unscheduling_signals list)) fun h => h

/-- After any run, a script but `RESUME` that runs on the paused queue leaves no token that was
not there exactly if it is no early retry. -/
theorem run_silent (m : GroupArgs) (calls : List Timed) (c : Timed)
    (paused : (run m calls).paused = true) (other : c.2 ≠ .resume) :
    (step m c (run m calls)).2.wake ≤ (run m calls).wake ↔ ¬EarlyRetry m c (run m calls) :=
  exec_silent c.1 c.2 paused other

/-- A job under way when the queue is paused. -/
def startAndPause : List Timed :=
  [(0, .add [{ id := "a", data := "null", priority := 0, attempts := 2 }]),
    (1000, .claim 30000 none ["t"]), (2000, .pause)]

theorem run_silent_complete :
    (step ⟨false, 0⟩ (3000, .complete "a" "t" 0 0 30000 "" "" none)
      (run ⟨false, 0⟩ startAndPause)).2.wake ≤ (run ⟨false, 0⟩ startAndPause).wake :=
  (run_silent ⟨false, 0⟩ startAndPause (3000, .complete "a" "t" 0 0 30000 "" "" none)
    (by decide) (by simp)).mpr id

theorem failed_wakes : (run ⟨false, 0⟩ startAndPause).paused = true ∧
    (run ⟨false, 0⟩ startAndPause).wake = 0 ∧
    (step ⟨false, 0⟩ (3000, .fail "a" "t" "\x7b\x7d" 1000 0 30000 "" none)
      (run ⟨false, 0⟩ startAndPause)).2.wake = 1 := by
  decide

end NxgtData.Queue
