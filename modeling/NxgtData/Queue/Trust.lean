import NxgtData.Queue.Invariants

/-!
What the scripts write, the claim trusts. A hash that `add_job` writes for a job
within the reader's limits passes the claim's check, every later form of it does,
and a claim over such hashes refuses none. What is asked is asked of the jobs
alone, so it says what the callers of the scripts have to keep.
-/
namespace NxgtData.Queue
open Decimal Gcra

variable {m : GroupArgs} {id : String} {b b' : Board}

/-- A job within the reader's limits; 10^15 is the first timeout of 16 digits. -/
structure NewJob.Trusted (j : NewJob) : Prop where
  group : j.GroupSound
  attempts : 1 ≤ j.attempts
  priority : j.priority ≤ 1000
  timeout : j.timeoutMs < 0 ∨ 1 ≤ j.timeoutMs ∧ j.timeoutMs < 10 ^ 15

/-- A timeout the check accepts. -/
theorem timeout_sound {n : Nat} :
    (whole (toString n) && decide ((toString n).utf8ByteSize ≤ 15) &&
      decide (tonumber (toString n) ≥ 1)) = true ↔ 1 ≤ n ∧ n < 10 ^ 15 := by
  rw [whole_toString, tonumber_toString, Bool.true_and, Bool.and_eq_true, decide_eq_true_eq,
    decide_eq_true_eq, utf8ByteSize_toString_le_iff (by decide)]
  exact and_comm

theorem NewJob.Trusted.hash {j : NewJob} (trusted : j.Trusted) (now : Nat) :
    sound (j.hash m now) = true := by
  have group : groupSound (j.hash m now).group = true := by
    change groupSound (if m.grouped = true ∧ j.group ≠ "" then some j.group else none) = true
    split
    next => exact trusted.group
    next => rfl
  have timeout : (j.hash m now).timeout.all
      (fun v => whole v && v.utf8ByteSize ≤ 15 && tonumber v ≥ 1) = true := by
    change (if j.timeoutMs ≥ 0 then some (toString j.timeoutMs.toNat) else none : Option String).all
      _ = true
    rcases trusted.timeout with none | ⟨least, most⟩
    · rw [if_neg (by omega)]
      rfl
    · rw [if_pos (by omega), Option.all_some]
      exact timeout_sound.mpr ⟨by omega, by omega⟩
  unfold sound
  rw [group, timeout]
  simp only [NewJob.hash, Option.isSome_some, Option.any_some, whole_toString, tonumber_toString,
    Bool.and_true, Bool.true_and, Bool.and_eq_true, decide_eq_true_eq]
  exact ⟨trusted.attempts, trusted.priority⟩

/-- The attempt a script stores is whole. -/
theorem sound_attempt {h : JobHash} (trusted : sound h = true) (k : Nat) :
    sound { h with attempt := some (toString k) } = true := by
  simp only [sound, Bool.and_eq_true, and_assoc] at trusted ⊢
  exact ⟨trusted.1, whole_toString k, trusted.2.2⟩

theorem sound_data {h : JobHash} (trusted : sound h = true) (data : String) :
    sound { h with data := some data } = true := by
  simp only [sound, Bool.and_eq_true, and_assoc] at trusted ⊢
  exact ⟨rfl, trusted.2⟩

/-- Whatever a script makes of a sound hash is sound. -/
theorem Change.sound {a : Act} {h h' : JobHash} {ev : List Event}
    (change : Change a (some h) ev (some h')) (trusted : sound h = true) : sound h' = true := by
  cases change with
  | debounce data => exact sound_data trusted data
  | start => exact sound_attempt trusted _
  | release => exact sound_attempt trusted _
  | retry => exact sound_attempt trusted _
  | _ => exact trusted

/-- Every hash of the board passes the check. -/
def Board.Trusted (b : Board) : Prop := ∀ id h, b.job id = some h → sound h = true

theorem Leads.trusted {ms : List Mark} {P : NewJob → Prop} (leads : Leads m (Writes m P) b ms b')
    (new : ∀ j, P j → j.Trusted) (trusted : b.Trusted) : b'.Trusted := by
  refine leads.hashes (I := fun h => sound h = true) ?_ (fun change => change.sound) trusted
  rintro id h ⟨j, now, written, -, rfl⟩
  exact (new j written).hash now

namespace Board.Trusted

theorem of_job (trusted : b.Trusted) (same : b'.job = b.job) : b'.Trusted := by
  unfold Board.Trusted
  rw [same]
  exact trusted

/-- What the check refuses is no hash at all. -/
theorem gone (trusted : b.Trusted) (untrusted : ¬ sound (b.hmget id) = true) :
    b.job id = none := by
  cases was : b.job id with
  | none => rfl
  | some h =>
      rw [Board.hmget_of_job was] at untrusted
      exact absurd (trusted id h was) untrusted

end Board.Trusted

/-- The board is trusted and `id` has a hash on it. -/
structure Board.Holds (id : String) (b : Board) : Prop where
  trusted : b.Trusted
  sound : sound (b.hmget id) = true

namespace Board.Holds
variable (holds : b.Holds id)
include holds

theorem of_job (same : b'.job = b.job) : b'.Holds id := by
  refine ⟨holds.trusted.of_job same, ?_⟩
  rw [Board.hmget, same]
  exact holds.sound

theorem put {f : JobHash → JobHash} (keep : ∀ h, Queue.sound h = true → Queue.sound (f h) = true)
    (same : b'.job = Function.update b.job id (some (f (b.hmget id)))) : b'.Holds id := by
  have new := keep _ holds.sound
  refine ⟨fun id' h is => ?_, ?_⟩
  · rw [same] at is
    by_cases own : id' = id
    · subst own
      rw [Function.update_self] at is
      cases is
      exact new
    · rw [Function.update_of_ne own] at is
      exact holds.trusted id' h is
  · rw [Board.hmget, same, Function.update_self]
    exact new

theorem hset {f : JobHash → JobHash} (keep : ∀ h, Queue.sound h = true → Queue.sound (f h) = true) :
    (b.hset id f).Holds id := holds.put keep rfl

theorem hdel {f : JobHash → JobHash} (keep : ∀ h, Queue.sound h = true → Queue.sound (f h) = true) :
    (b.hdel id f).Holds id := by
  refine holds.put keep ?_
  cases was : b.job id with
  | none =>
      have empty := holds.sound
      rw [Board.hmget, was] at empty
      cases empty
  | some h => rw [Board.hdel, was, Board.hmget_of_job was, Option.map_some]

end Board.Holds

/-- Nothing was refused so far, and nothing will be. -/
structure Claiming.Clean (st : Claiming) : Prop where
  none : st.invalid = []
  trusted : st.q.toBoard.Trusted

section Claim
variable {now lease : Nat} {tokens : List String} {st : Claiming}

theorem refuse_job (gone : b.job id = none) : (b.refuse m now id).job = b.job := by
  have same : (({ b with delayed := b.delayed.rem id }.readyRem m id (b.groupOf id)).activeRem m id
      (b.groupOf id)).2.job = b.job := by
    rw [Board.activeRem_job]
    rfl
  unfold Board.refuse
  dsimp only
  rw [if_pos]
  · exact same
  · rw [same, gone]
    rfl

theorem Claiming.Clean.refuse (clean : st.Clean) (untrusted : ¬ sound (st.q.hmget id) = true) :
    (refuse m now id st).Clean := by
  have gone := clean.trusted.gone untrusted
  refine ⟨?_, clean.trusted.of_job (refuse_job gone)⟩
  change (if (st.q.job id).isNone then st.invalid else st.invalid ++ [id]) = []
  rw [gone]
  exact clean.none

theorem readyAgain_job (q : Keys) (id : String) (priority : Nat) (g : String) :
    (Keys.readyAgain m id priority g q).2.job = q.job := Board.readyAdd_job ..

theorem reclaimOne_clean (clean : st.Clean) : (reclaimOne m now st id).Clean := by
  unfold reclaimOne
  dsimp only
  split
  next untrusted => exact clean.refuse (by simpa using untrusted)
  next trusted =>
    have holds : st.q.toBoard.Holds id := ⟨clean.trusted, by simpa using trusted⟩
    let g := (st.q.hmget id).group.getD ""
    have freed := (holds.of_job (Board.activeRem_job (m := m) _ id g)).hdel
      (f := fun h => { h with token := none }) fun _ sound => sound
    refine ⟨clean.none, ?_⟩
    split
    next =>
      have waits := freed.hset (f := fun h => { h with state := some .waiting }) fun _ sound => sound
      exact (waits.of_job (readyAgain_job ..)).trusted
    next =>
      have failed := freed.hset (f := fun h =>
        { h with state := some .failed, error := some lapsedError, finished := some (toString now) })
        fun _ sound => sound
      exact failed.trusted.of_job rfl

theorem promoteOne_clean (clean : st.Clean) : (promoteOne m now st id).Clean := by
  unfold promoteOne
  dsimp only
  split
  next untrusted => exact clean.refuse (by simpa using untrusted)
  next trusted =>
    have holds : st.q.toBoard.Holds id := ⟨clean.trusted, by simpa using trusted⟩
    have taken : { st.q.toBoard with delayed := st.q.delayed.rem id }.Holds id := holds.of_job rfl
    have waits := taken.hset (f := fun h => { h with state := some .waiting }) fun _ sound => sound
    exact ⟨clean.none, (waits.of_job (readyAgain_job ..)).trusted⟩

theorem beginJob_clean (g : String) (clean : st.Clean) :
    (beginJob m now lease tokens id g st).Clean := by
  unfold beginJob
  dsimp only
  split
  next untrusted => exact clean.refuse (by simpa using untrusted)
  next trusted =>
    have holds : st.q.toBoard.Holds id := ⟨clean.trusted, by simpa using trusted⟩
    have started := holds.hset (f := fun h =>
        { h with
          state := some .active
          token := some (tokens.getD st.jobs.length "")
          attempt := some (toString (number (st.q.hmget id).attempt + 1)) })
      fun _ sound => sound_attempt sound _
    exact ⟨clean.none, started.trusted.of_job rfl⟩

theorem foldl_clean {turn : Claiming → String → Claiming}
    (clean : ∀ st id, st.Clean → (turn st id).Clean) (ids : List String) (start : st.Clean) :
    (ids.foldl turn st).Clean := by
  induction ids generalizing st with
  | nil => exact start
  | cons id ids ih => exact ih (clean st id start)

theorem claimReady_clean {q : Keys} (trusted : q.toBoard.Trusted) : (claimReady m now q).Clean :=
  foldl_clean (fun _ _ => promoteOne_clean) _ (foldl_clean (fun _ _ => reclaimOne_clean) _
    ⟨rfl, trusted⟩)

theorem popTurn_clean {served : Option String} {st' : Claiming} (clean : st.Clean)
    (turn : popTurn m now lease tokens st = some (served, st')) : st'.Clean := by
  unfold popTurn at turn
  split at turn
  next => cases turn
  next g k taken =>
    dsimp only at turn
    split at turn
    next id l z popped =>
      cases turn
      let b := Board.popGroup id g z { st.q.toBoard with groups := k }
      let popping : Claiming := { st with q := { st.q with toBoard := b } }
      have begun : (beginJob m now lease tokens id g popping).Clean :=
        beginJob_clean g ⟨clean.none, clean.trusted.of_job rfl⟩
      exact ⟨begun.none, begun.trusted.of_job (Board.requeue_job ..)⟩
    next =>
      cases turn
      exact ⟨clean.none, clean.trusted.of_job rfl⟩

theorem popGroups_clean (n takes got : Nat) (clean : st.Clean) :
    (popGroups m now lease tokens n takes got st).Clean := by
  induction takes generalizing got st with
  | zero => exact clean
  | succ takes ih =>
      unfold popGroups
      split
      next =>
        split
        next => exact clean
        next turn => exact ih _ (popTurn_clean clean turn)
        next turn => exact ih _ (popTurn_clean clean turn)
      next => exact clean

theorem claimPop_clean (us n : Nat) (rate : Option Rate) (clean : st.Clean) :
    (claimPop m now us n lease tokens rate st).Clean := by
  unfold claimPop
  dsimp only
  split
  next => exact popGroups_clean _ _ _ clean
  next =>
    split
    next => exact foldl_clean (fun _ _ => beginJob_clean "") _ ⟨clean.none, clean.trusted.of_job rfl⟩
    next => exact clean

/-- A claim over hashes that all pass the check fails none as `INVALID`. -/
theorem claim_invalid (us n lease : Nat) (tokens : List String) (rate : Option Rate) {q : Keys}
    (trusted : q.toBoard.Trusted) : (claim m us n lease tokens rate q).1.invalid = [] :=
  (claimPop_clean us n rate (claimReady_clean trusted)).none

end Claim

/-- The jobs a reply says a claim failed as `INVALID`. -/
def Reply.invalid : Reply → List String
  | .claimed claim | .completed _ claim | .failed _ _ claim => claim.invalid
  | _ => []

theorem settleClaim_invalid {us lease : Nat} {claimToken : String} {rate : Option Rate}
    {freed : Bool} {q : Keys} (trusted : q.toBoard.Trusted) :
    (settleClaim m us lease claimToken rate freed q).1.invalid = [] := by
  unfold settleClaim
  split
  next => exact claim_invalid us 1 lease [claimToken] rate trusted
  next => rfl

theorem guarded_invalid {script : Keys → Reply × Keys} {q : Keys}
    (clean : ∀ q' : Keys, q'.toBoard = q.toBoard → (script q').1.invalid = []) :
    (guarded m script q).1.invalid = [] := by
  unfold guarded
  split
  next => rfl
  next q' marker => exact clean q' (groupModeCheck_toBoard marker).1

theorem orError_invalid {α : Type} {reply : α → Reply} (clean : ∀ a, (reply a).invalid = [])
    (r : Except String α) : (orError reply r).invalid = [] := by
  cases r with
  | error text => rfl
  | ok a => exact clean a

/-- No script fails a job as `INVALID` while every hash passes the check. -/
theorem exec_invalid {q : Keys} (us : Nat) (c : Call) (hb : Sane m q.toBoard)
    (trusted : q.toBoard.Trusted) : (exec m us c q).1.invalid = [] := by
  have kept : ∀ {ms : List Mark} {b : Board},
      Leads m (Writes m NewJob.Trusted) q.toBoard ms b → b.Trusted :=
    fun leads => leads.trusted (fun _ sent => sent) trusted
  cases c with
  | claim lease rate tokens =>
      exact guarded_invalid fun q' same => claim_invalid us _ lease tokens _ (same ▸ trusted)
  | complete id token keepAge keepCount lease claimToken result rate =>
      refine guarded_invalid fun q' same => settleClaim_invalid ?_
      rw [← same] at hb kept
      exact kept (completeSettle_leads (us / 1000) id token keepAge keepCount result hb)
  | fail id token error retryIn keepFailed lease claimToken rate =>
      refine guarded_invalid fun q' same => settleClaim_invalid ?_
      rw [← same] at hb kept
      exact kept (failSettle_leads (us / 1000) id token error retryIn keepFailed hb)
  | add | release | cancel | retry | remove | resume => exact guarded_invalid fun _ _ => rfl
  | fire => exact guarded_invalid fun _ _ => orError_invalid (fun _ => rfl) _
  | defer | sync => exact orError_invalid (fun _ => rfl) _
  | renew | pause | progress | stepBegin | stepCommit | upsert | unschedule => rfl

/-- In a run whose calls send jobs within the reader's limits, every hash passes
the check and no claim fails a job as `INVALID`. -/
theorem run_trusted (calls : List Timed) (sends : Sends NewJob.Trusted calls) :
    (run m calls).toBoard.Trusted ∧ ∀ e ∈ log m calls, e.2.invalid = [] := by
  have trusted : ∀ calls, Sends NewJob.Trusted calls → (run m calls).toBoard.Trusted := by
    intro calls sends
    refine (run_leads calls sends fun _ within => within.group).trusted (fun _ sent => sent) ?_
    intro id h is
    cases is
  refine ⟨trusted calls sends, fun e mem => ?_⟩
  obtain ⟨pre, post, split⟩ := List.append_of_mem mem
  obtain ⟨before, later, rfl, -, answer, -⟩ := served_split _ split
  have sent : Sends NewJob.Trusted before := fun c mem => sends c (List.mem_append_left _ mem)
  have sane := (run_leads (m := m) before sent fun _ within => within.group).sane (.empty m)
  rw [answer]
  exact exec_invalid e.1.1 e.1.2 sane (trusted before sent)

end NxgtData.Queue
