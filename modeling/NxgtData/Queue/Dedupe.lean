import NxgtData.Queue.Attempts
import NxgtData.Queue.ResolveAdd

/-!
Debounce and throttle. A dedupe key names the job that the last add under it set it to, as the
log has it, and a job that waits may be joined when the ledger says that it has not run: each
claim of it since it was created was given back, and it was not retried.
-/
namespace NxgtData.Queue
open Decimal Gcra

variable {m : GroupArgs} {q q' : Keys} {id : String} {past : List Mark}

/-- Whether the job was retried since it was created. -/
def putBack (id : String) (ms : List Mark) : Bool :=
  track (fun r mk =>
    match mk with
    | .created _ _ => false
    | .retried _ _ => true
    | _ => r) false id ms

/-- The job has not run since it was created. -/
def Unstarted (id : String) (ms : List Mark) : Prop :=
  claims id ms = releases id ms ∧ putBack id ms = false

/-- The job waits for its time or its turn. -/
def Board.Waits (id : String) (b : Board) : Prop := id ∈ b.ready ∨ id ∈ b.delayed

section Ledger
variable {a : Act}

/-- What a hash says of its job's retries, and that it has a priority. -/
structure Recalls (past : List Mark) (id : String) (h : JobHash) : Prop where
  retried : h.retried.isSome = putBack id past
  priority : ∃ p : Nat, h.priority = some (toString p)

/-- Whether the act says something of retries. -/
def Act.turns : Act → Bool
  | .create _ _ | .retry _ _ => true
  | _ => false

theorem putBack_of_still (past : List Mark) (id : String) (still : a.turns = false) :
    putBack id (past ++ marks [a]) = putBack id past := by
  cases h : a.mark with
  | none => rw [marks_single_none h, List.append_nil]
  | some mk =>
      rw [marks_single h, putBack, track_snoc]
      cases a <;> cases h <;> simp [Act.turns, putBack] at still ⊢

theorem Recalls.keep {h h' : JobHash} (recalls : Recalls past a.id h) (still : a.turns = false)
    (retried : h'.retried = h.retried) (priority : h'.priority = h.priority) :
    Recalls (past ++ marks [a]) a.id h' where
  retried := by rw [retried, putBack_of_still past a.id still, recalls.retried]
  priority := priority ▸ recalls.priority

theorem Change.recalls {o : Option JobHash} {ev : List Event} {h' : JobHash}
    (change : Change a o ev (some h')) (recalls : ∀ h, o = some h → Recalls past a.id h)
    (new : ∀ id h, a = .create id h → h.retried = none ∧ ∃ p : Nat, h.priority = some (toString p)) :
    Recalls (past ++ marks [a]) a.id h' := by
  cases change with
  | create =>
      obtain ⟨retried, priority⟩ := new _ _ rfl
      refine ⟨?_, priority⟩
      rw [retried]
      simp [marks, Act.mark, putBack, track_snoc, Act.id, Mark.id]
  | @retry id fresh h =>
      refine ⟨?_, (recalls h rfl).priority⟩
      simp [marks, Act.mark, putBack, track_snoc, Act.id, Mark.id]
  | renew | begun | drop => exact (recalls h' rfl).keep rfl rfl rfl
  | @debounce _ h | @promote _ h | @reclaim _ h | @lapse _ h | @refuse _ h | @start _ _ h
  | @complete _ _ h | @retryLater _ _ h | @failFinal _ _ h | @release _ _ h | @progress _ _ h
  | @commit _ _ _ _ h => exact (recalls h rfl).keep rfl rfl rfl

/-- The board under its ledger, as far as a debounce looks at it. -/
structure Known (m : GroupArgs) (past : List Mark) (b : Board) : Prop where
  counted : Counted m past b
  recalls : ∀ id h, b.job id = some h → Recalls past id h

theorem Known.empty (m : GroupArgs) : Known m [] {} where
  counted := ⟨.empty m, fun _ _ is => absurd is nofun, fun _ => le_rfl⟩
  recalls := fun _ _ is => absurd is nofun

theorem Known.leads {b b' : Board} {ms : List Mark} (known : Known m past b)
    (leads : Leads m (Writes m NewJob.Attemptable) b ms b') : Known m (past ++ ms) b' := by
  refine leads.history past (R := Known m) (fun {past b a b'} known move new => ?_) known
  refine ⟨known.counted.move move fun id h eq => ?_, fun id h is => ?_⟩
  · obtain ⟨j, now, attemptable, -, rfl⟩ := new id h eq
    exact ⟨j.attempts, rfl, attemptable.2⟩
  · by_cases own : id = a.id
    · subst own
      obtain ⟨ev, change, -⟩ := move.change
      rw [is] at change
      refine change.recalls (known.recalls a.id) fun id h eq => ?_
      obtain ⟨j, now, -, -, rfl⟩ := new id h eq
      exact ⟨rfl, j.priority, rfl⟩
    · rw [move.job_of_ne own] at is
      have before := known.recalls id h is
      refine ⟨?_, before.priority⟩
      rw [before.retried, putBack, putBack, track_marks_of_ne own]

/-- The hash fields and the zsets that a debounce reads say what the ledger does. -/
theorem Known.waitingJob_iff {b : Board} (known : Known m past b) :
    waitingJob id b = true ↔ b.Waits id ∧ Unstarted id past := by
  have placed := known.counted.sane.placed
  cases was : b.job id with
  | none =>
      refine iff_of_false (fun waits => ?_) fun ⟨waits, _⟩ => ?_
      · obtain ⟨h, is, -⟩ := job_of_waitingJob waits
        exact absurd (was.symm.trans is) nofun
      · rcases waits with mem | mem
        · obtain ⟨h, is, -⟩ := placed.job_of_mem (s := .waiting) mem
          exact absurd (was.symm.trans is) nofun
        · obtain ⟨h, is, -⟩ := placed.job_of_mem (s := .delayed) mem
          exact absurd (was.symm.trans is) nofun
  | some h =>
      obtain ⟨k, n, counts⟩ := known.counted.counts id h was
      obtain ⟨retried, p, priority⟩ := known.recalls id h was
      have stateOf := Board.stateOf_of_job was
      have ready : id ∈ b.ready ↔ h.state = some .waiting := stateOf ▸ placed.mem_place id .waiting
      have delayed : id ∈ b.delayed ↔ h.state = some .delayed :=
        stateOf ▸ placed.mem_place id .delayed
      have attempt : h.attempt = some "0" ↔ claims id past = releases id past := by
        rw [counts.attempt, counts.claimed]
        constructor
        · intro zero
          have eq : toString k = toString 0 := Option.some.inj zero
          have := congrArg tonumber eq
          rw [tonumber_toString, tonumber_toString] at this
          omega
        · intro none
          obtain rfl : k = 0 := by omega
          rfl
      have whole : h.priority.any whole = true := by
        rw [priority, Option.any_some]
        exact whole_toString p
      unfold waitingJob Board.Waits Unstarted
      dsimp only
      rw [Board.hmget_of_job was, whole, ← retried, ← attempt]
      simp only [ready, delayed]
      by_cases zero : h.attempt = some "0"
      · cases h.retried with
        | some r => simp
        | none => simp [zero]
      · simp [zero]

end Ledger

/-! Who set a key, read off the log. -/

/-- What one job of `ADD` set its key to. -/
def AddReply.sets (key : String) (now : Nat) (j : AddJob) : AddReply → List Expiring
  | .added => if j.mode ≠ .none ∧ j.dedupeKey = key then [⟨j.id, now + j.ttlMs⟩] else []
  | .held id => if j.mode = .debounce ∧ j.dedupeKey = key then [⟨id, now + j.ttlMs⟩] else []
  | .existed => []

def addSets (key : String) (now : Nat) : List AddJob → List AddReply → List Expiring
  | j :: jobs, r :: replies => r.sets key now j ++ addSets key now jobs replies
  | _, _ => []

def Call.sets (key : String) (us : Nat) : Call → Reply → List Expiring
  | .add jobs, .added replies => addSets key (us / 1000) jobs replies
  | _, _ => []

/-- What a log says a key was set to, oldest first. -/
def settings (key : String) (log : List (Timed × Reply)) : List Expiring :=
  log.flatMap fun e => e.1.2.sets key e.1.1 e.2

/-- A job with a key is under an id the script reads back. -/
def AddJob.Keyed (j : AddJob) : Prop := j.mode ≠ .none → isId j.id = true

/-- Every add with a key is under such an id. -/
def Keyed (calls : List Timed) : Prop :=
  ∀ c ∈ calls, match c.2 with
    | .add jobs => ∀ j ∈ jobs, j.Keyed
    | _ => True

/-- The keys hold what the log last set them to, each an id the script reads back. -/
structure Held (set : String → List Expiring) (q : Keys) : Prop where
  last : ∀ key, q.dedupe key = (set key).getLast?
  isId : ∀ key e, q.dedupe key = some e → isId e.value = true

section Sets
variable {set : String → List Expiring} {now us : Nat} {paused : Bool} {j : AddJob}

theorem wakeUp_dedupe (q : Keys) : q.wakeUp.dedupe = q.dedupe := by
  unfold Keys.wakeUp
  split <;> rfl

theorem ite_wakeUp_dedupe (b : Bool) (q : Keys) :
    (if b then q.wakeUp else q).dedupe = q.dedupe := by
  split
  · exact wakeUp_dedupe q
  · rfl

theorem poke_dedupe (q : Keys) (paused : Bool) : (q.poke paused).dedupe = q.dedupe := by
  unfold Keys.poke
  split
  · rfl
  · exact wakeUp_dedupe q

theorem addJob_dedupe (now : Nat) (paused : Bool) (j : NewJob) (q : Keys) :
    (addJob m now paused j q).2.dedupe = q.dedupe := by
  unfold addJob
  split
  · rfl
  · dsimp only
    split
    · simp only [apply_ite Keys.dedupe, poke_dedupe, ite_self]
    · simp only [apply_ite Keys.dedupe, poke_dedupe, ite_self]

theorem debounceJob_dedupe (q : Keys) : (debounceJob m now paused id j q).dedupe =
    Function.update q.dedupe j.dedupeKey (some ⟨id, now + j.ttlMs⟩) := by
  unfold debounceJob Keys.setDedupe
  dsimp only
  split
  · rw [poke_dedupe]
  · rfl

theorem fire_dedupe {due next attempts : Nat} {timeout : Int} :
    (fire m now id due next attempts timeout q).2.dedupe = q.dedupe := by
  unfold fire
  split
  · rfl
  · split
    · rfl
    · split
      · rfl
      · dsimp only
        split
        · rfl
        · exact addJob_dedupe now q.paused _ q

theorem releaseAll_dedupe (jobs : List (String × String)) :
    (releaseAll m jobs q).2.2.dedupe = q.dedupe := by
  induction jobs generalizing q with
  | nil => rfl
  | cons job jobs ih =>
      have first : (releaseOne m job.1 job.2 q).2.2.dedupe = q.dedupe := by
        unfold releaseOne
        dsimp only
        split <;> rfl
      exact ih.trans first

theorem cancel_dedupe : (cancel m id q).2.dedupe = q.dedupe := by
  unfold cancel
  split
  · rfl
  · exact ite_wakeUp_dedupe _ _

theorem retry_dedupe {fresh : Bool} : (retry m now id fresh q).2.dedupe = q.dedupe := by
  unfold retry
  dsimp only
  split
  · rfl
  · split
    · rfl
    · split
      · rfl
      · rw [ite_wakeUp_dedupe]
        split <;> rfl

theorem claim_dedupe {n lease : Nat} {tokens : List String} {rate : Option Rate} :
    (claim m us n lease tokens rate q).2.dedupe = q.dedupe := by
  have popped := claimPop_keeps (m := m) (q := q) (f := Keys.dedupe) (fun _ _ _ => rfl)
    (us / 1000) us n lease tokens rate
  have charged : ∀ k (q : Keys), (charge us rate k q).dedupe = q.dedupe := by
    intro k q
    unfold charge
    split
    · rfl
    · split <;> rfl
  have settled : ∀ retry (q : Keys), (settleWake m retry q).dedupe = q.dedupe := by
    intro retry q
    unfold settleWake
    split
    · exact wakeUp_dedupe q
    · rfl
  simp only [claim, settled, charged, popped]

theorem settleClaim_dedupe {lease : Nat} {claimToken : String} {rate : Option Rate} {freed : Bool} :
    (settleClaim m us lease claimToken rate freed q).2.dedupe = q.dedupe := by
  unfold settleClaim
  split
  · exact claim_dedupe
  · exact ite_wakeUp_dedupe _ _

theorem marked_dedupe (marker : q.groupModeCheck m = some q') : q'.dedupe = q.dedupe := by
  unfold Keys.groupModeCheck at marker
  split at marker
  · split at marker
    · exact absurd marker nofun
    · cases marker
      rfl
  · cases marker
    rfl

theorem guarded_dedupe {script : Keys → Reply × Keys}
    (keeps : ∀ q, (script q).2.dedupe = q.dedupe) :
    (guarded m script q).2.dedupe = q.dedupe := by
  unfold guarded
  split
  · rfl
  next marker => exact (keeps _).trans (marked_dedupe marker)

theorem unscheduling_dedupe : Unscheduling Keys.dedupe := fun _ _ _ _ => rfl

/-- No script but `ADD` writes a dedupe key. -/
theorem exec_dedupe (us : Nat) {c : Call} (other : ∀ jobs, c ≠ .add jobs) :
    (exec m us c q).2.dedupe = q.dedupe := by
  cases c with
  | add jobs => exact absurd rfl (other jobs)
  | claim => exact guarded_dedupe fun _ => claim_dedupe
  | complete => exact guarded_dedupe fun q => settleClaim_dedupe (q := { q with toBoard := _ })
  | fail =>
      refine guarded_dedupe fun q => ?_
      exact (ite_wakeUp_dedupe _ _).trans (settleClaim_dedupe (q := { q with toBoard := _ }))
  | renew | pause | progress | stepBegin | stepCommit => rfl
  | release jobs =>
      exact guarded_dedupe fun q => (ite_wakeUp_dedupe _ _).trans (releaseAll_dedupe jobs)
  | cancel => exact guarded_dedupe fun _ => cancel_dedupe
  | retry => exact guarded_dedupe fun _ => retry_dedupe
  | remove => exact guarded_dedupe fun _ => rfl
  | resume => exact guarded_dedupe fun _ => ite_wakeUp_dedupe _ _
  | fire => exact guarded_dedupe fun _ => fire_dedupe
  | defer id due untl => exact defer_keeps unscheduling_dedupe id due untl
  | upsert s => exact upsert_keeps unscheduling_dedupe s
  | unschedule id => exact unschedule_keeps unscheduling_dedupe id
  | sync list => exact sync_keeps unscheduling_dedupe list

/-- The job an add joins: what its key holds, and for a debounce while that job waits. -/
def hit (now : Nat) (j : AddJob) (q : Keys) : Option String :=
  match j.mode with
  | .none => none
  | .throttle => (q.heldBy now j.dedupeKey).filter isId
  | .debounce =>
      ((q.heldBy now j.dedupeKey).filter isId).filter fun id => waitingJob id q.toBoard

theorem addOne_eq (now : Nat) (paused : Bool) (j : AddJob) (q : Keys) :
    addOne m now paused j q =
      match hit now j q with
      | some id =>
          if j.mode = .debounce then (.held id, debounceJob m now paused id j q) else (.held id, q)
      | none =>
          match addJob m now paused j.toNewJob q with
          | (true, q) =>
              (.added, if j.mode = .none then q else q.setDedupe now j.dedupeKey j.id j.ttlMs)
          | (false, q) => (.existed, q) := by
  unfold addOne hit
  cases j.mode <;> rfl

theorem isId_of_hit (is : hit now j q = some id) : isId id = true ∧ j.mode ≠ .none := by
  unfold hit at is
  cases mode : j.mode with
  | none =>
      rw [mode] at is
      exact absurd is nofun
  | throttle =>
      rw [mode] at is
      exact ⟨(Option.filter_eq_some_iff.mp is).2, nofun⟩
  | debounce =>
      rw [mode] at is
      obtain ⟨held, -⟩ := Option.filter_eq_some_iff.mp is
      exact ⟨(Option.filter_eq_some_iff.mp held).2, nofun⟩

/-- A key set to an id the script reads back. -/
theorem Held.write {key value : String} {expires : Nat} (held : Held set q)
    (dedupe : q'.dedupe = Function.update q.dedupe key (some ⟨value, expires⟩))
    (reads : Queue.isId value = true) :
    Held (fun k => set k ++ if key = k then [⟨value, expires⟩] else []) q' where
  last := fun k => by
    rw [dedupe, Function.update_apply]
    by_cases own : key = k
    · rw [if_pos own.symm, if_pos own, List.getLast?_concat]
    · rw [if_neg (Ne.symm own), if_neg own, List.append_nil]
      exact held.last k
  isId := fun k e is => by
    rw [dedupe, Function.update_apply] at is
    split at is
    · cases is
      exact reads
    · exact held.isId k e is

theorem Held.same {set' : String → List Expiring} (held : Held set q)
    (dedupe : q'.dedupe = q.dedupe) (none : ∀ key, set' key = []) :
    Held (fun key => set key ++ set' key) q' where
  last := fun key => by
    rw [none, List.append_nil, dedupe]
    exact held.last key
  isId := dedupe ▸ held.isId

theorem Held.addOne (held : Held set q) (now : Nat) (paused : Bool) (keyed : j.Keyed) :
    Held (fun key => set key ++ (addOne m now paused j q).1.sets key now j)
      (addOne m now paused j q).2 := by
  rw [addOne_eq]
  cases joined : hit now j q with
  | some id =>
      dsimp only
      split
      next debounce =>
        have after := held.write (@debounceJob_dedupe m id now paused j q)
          (isId_of_hit joined).1
        simpa only [AddReply.sets, debounce, true_and] using after
      next other =>
        refine held.same rfl fun key => ?_
        exact if_neg fun both => other both.1
  | none =>
      have same := addJob_dedupe (m := m) now paused j.toNewJob q
      dsimp only
      cases added : addJob m now paused j.toNewJob q with
      | mk new q' =>
          rw [added] at same
          cases new with
          | false => exact held.same same fun _ => rfl
          | true =>
              by_cases mode : j.mode = .none
              · dsimp only
                rw [if_pos mode]
                refine held.same same fun key => ?_
                exact if_neg fun both => both.1 mode
              · dsimp only
                rw [if_neg mode]
                have after := @Held.write _ (q'.setDedupe now j.dedupeKey j.id j.ttlMs) _ _ _ _ held
                  (by rw [Keys.setDedupe, same]) (keyed mode)
                simpa only [AddReply.sets, ne_eq, mode, not_false_eq_true, true_and] using after

theorem Held.addAll (held : Held set q) (now : Nat) (paused : Bool) (jobs : List AddJob)
    (keyed : ∀ j ∈ jobs, j.Keyed) :
    Held (fun key => set key ++ addSets key now jobs (addAll m now paused jobs q).1)
      (addAll m now paused jobs q).2 := by
  induction jobs generalizing set q with
  | nil => exact held.same rfl fun _ => rfl
  | cons j jobs ih =>
      have first := held.addOne (m := m) now paused (keyed j List.mem_cons_self)
      have rest := ih first fun j mem => keyed j (List.mem_cons_of_mem _ mem)
      simp only [List.append_assoc] at rest
      exact rest

theorem Held.exec (held : Held set q) (us : Nat) (c : Call) (keyed : Keyed [(us, c)]) :
    Held (fun key => set key ++ c.sets key us (exec m us c q).1) (exec m us c q).2 := by
  have own := keyed (us, c) (List.mem_singleton_self _)
  cases c with
  | add jobs =>
      simp only [Queue.exec, guarded]
      split
      · exact held.same rfl fun _ => rfl
      next q' marker =>
        have marked : Held set q' :=
          ⟨fun key => marked_dedupe marker ▸ held.last key, marked_dedupe marker ▸ held.isId⟩
        exact marked.addAll (us / 1000) q'.paused jobs own
  | _ => exact held.same (exec_dedupe us (by simp)) fun _ => rfl

theorem Held.runFrom (held : Held set q) (calls : List Timed) (keyed : Keyed calls) :
    Held (fun key => set key ++ settings key (logFrom m calls q)) (runFrom m calls q) := by
  induction calls generalizing set q with
  | nil => exact held.same rfl fun _ => rfl
  | cons c calls ih =>
      have first := held.exec (m := m) c.1 c.2 fun d mem =>
        List.mem_singleton.mp mem ▸ keyed c List.mem_cons_self
      have rest := ih first fun d later => keyed d (List.mem_cons_of_mem _ later)
      simp only [List.append_assoc] at rest
      exact rest

end Sets

/-! What an add does at its turn. -/

/-- A job's hash and places are as they were. -/
def Board.Same (id : String) (b b' : Board) : Prop :=
  b'.job id = b.job id ∧ ∀ s, (b'.place s).score id = (b.place s).score id

/-- A waiting job takes the add's data, and starts its wait anew. -/
structure Joined (now : Nat) (id : String) (j : AddJob) (q q' : Keys) : Prop where
  hash : ∃ h, q.job id = some h ∧ q'.job id = some { h with
    data := some j.data, state := some .delayed, runAt := some (toString (now + j.delayMs)) }
  delayed : q'.delayed.score id = some (now + j.delayMs)
  ready : id ∉ q'.ready
  key : q'.dedupe j.dedupeKey = some ⟨id, now + j.ttlMs⟩

/-- The add's own job is stored, and its key set to it. -/
structure Added (m : GroupArgs) (now : Nat) (j : AddJob) (q' : Keys) : Prop where
  hash : q'.job j.id = some (j.hash m now)
  waits : q'.toBoard.Waits j.id
  key : q'.dedupe j.dedupeKey = some ⟨j.id, now + j.ttlMs⟩

/-- An add with a key, by what the log says of the key and of the job it names. -/
structure Dedupes (m : GroupArgs) (now : Nat) (past : List Mark) (held : Option String) (j : AddJob)
    (q : Keys) (r : AddReply) (q' : Keys) : Prop where
  joins : j.mode = .debounce → ∀ id, held = some id → q.toBoard.Waits id → Unstarted id past →
    r = .held id ∧ Joined now id j q q'
  adds : j.mode = .debounce →
    (∀ id, held = some id → ¬ (q.toBoard.Waits id ∧ Unstarted id past)) → q.job j.id = none →
    r = .added ∧ Added m now j q'
  blocks : j.mode = .throttle → ∀ id, held = some id → r = .held id ∧ q' = q
  opens : j.mode = .throttle → held = none → q.job j.id = none → r = .added ∧ Added m now j q'
  others : ∀ id, r ≠ .held id → (r = .added → id ≠ j.id) → q.toBoard.Same id q'.toBoard

section Turn
variable {b b' : Board} {x : String} {now : Nat} {paused : Bool} {j : AddJob}

theorem Board.Same.refl (id : String) (b : Board) : b.Same id b := ⟨rfl, fun _ => rfl⟩

theorem debounceJob_joined {h : JobHash} (was : q.job id = some h) :
    Joined now id j q (debounceJob m now paused id j q) := by
  refine ⟨⟨h, was, ?_⟩, ?_, ?_, ?_⟩
  · simp only [debounceJob, Keys.setDedupe, apply_ite Keys.toBoard, Keys.poke_toBoard, ite_self]
    exact Board.hset_job was fun h => { h with
      data := some j.data, state := some .delayed, runAt := some (toString (now + j.delayMs)) }
  · simp only [debounceJob, Keys.setDedupe, apply_ite Keys.toBoard, Keys.poke_toBoard, ite_self]
    rw [SortedSet.score_add, if_pos rfl]
  · simp only [debounceJob, Keys.setDedupe, apply_ite Keys.toBoard, Keys.poke_toBoard, ite_self]
    exact fun mem => (SortedSet.mem_rem.mp mem).2 rfl
  · rw [debounceJob_dedupe, Function.update_self]

theorem debounceJob_same (other : x ≠ id) :
    q.toBoard.Same x (debounceJob m now paused id j q).toBoard := by
  simp only [debounceJob, Keys.setDedupe, apply_ite Keys.toBoard, Keys.poke_toBoard, ite_self]
  refine ⟨Function.update_of_ne other .., fun s => ?_⟩
  cases s with
  | delayed =>
      refine (SortedSet.score_add ..).trans ?_
      rw [if_neg other]
      rfl
  | waiting =>
      refine (SortedSet.score_rem ..).trans ?_
      rw [if_neg other]
      rfl
  | _ => rfl

theorem addJob_added (fresh : q.job j.id = none) :
    ∃ q', addJob m now paused j.toNewJob q = (true, q') ∧ q'.job j.id = some (j.hash m now) ∧
      q'.toBoard.Waits j.id := by
  unfold addJob
  rw [fresh, Option.isSome_none, if_neg Bool.false_ne_true]
  dsimp only
  split
  next due =>
    refine ⟨_, rfl, ?_, .inl ?_⟩
    · simp only [apply_ite Keys.toBoard, Keys.poke_toBoard, ite_self]
      exact Function.update_self ..
    · simp only [apply_ite Keys.toBoard, Keys.poke_toBoard, ite_self]
      exact SortedSet.mem_add.mpr (.inl rfl)
  next later =>
    refine ⟨_, rfl, ?_, .inr (SortedSet.mem_add.mpr (.inl rfl))⟩
    simp only [apply_ite Keys.toBoard, Keys.poke_toBoard, ite_self]
    exact Function.update_self ..

theorem addJob_same (other : x ≠ j.id) :
    q.toBoard.Same x (addJob m now paused j.toNewJob q).2.toBoard := by
  unfold addJob
  split
  · exact .refl x _
  · dsimp only
    split
    · simp only [apply_ite Keys.toBoard, Keys.poke_toBoard, ite_self]
      refine ⟨Function.update_of_ne other .., fun s => ?_⟩
      cases s with
      | waiting =>
          refine (SortedSet.score_add ..).trans ?_
          rw [if_neg other]
          rfl
      | _ => rfl
    · simp only [apply_ite Keys.toBoard, Keys.poke_toBoard, ite_self]
      refine ⟨Function.update_of_ne other .., fun s => ?_⟩
      cases s with
      | delayed =>
          refine (SortedSet.score_add ..).trans ?_
          rw [if_neg other]
          rfl
      | _ => rfl

/-- A new job under a key, when the add joins none. -/
theorem addOne_added (keyed : j.mode ≠ .none) (misses : hit now j q = none)
    (fresh : q.job j.id = none) :
    (addOne m now paused j q).1 = .added ∧ Added m now j (addOne m now paused j q).2 := by
  obtain ⟨q', added, hash, waits⟩ := @addJob_added m _ now paused _ fresh
  rw [addOne_eq, misses, added]
  dsimp only
  rw [if_neg keyed]
  exact ⟨rfl, hash, waits, Function.update_self ..⟩

/-- An add at its turn, by the key and the ledger. -/
theorem addOne_dedupes (known : Known m past q.toBoard)
    (reads : ∀ key e, q.dedupe key = some e → isId e.value = true) :
    Dedupes m now past (q.heldBy now j.dedupeKey) j q (addOne m now paused j q).1
      (addOne m now paused j q).2 := by
  have filtered : (q.heldBy now j.dedupeKey).filter isId = q.heldBy now j.dedupeKey := by
    cases is : q.heldBy now j.dedupeKey with
    | none => rfl
    | some id =>
        obtain ⟨e, there, live⟩ := Option.bind_eq_some_iff.mp is
        split at live
        · exact absurd live nofun
        · cases live
          rw [Option.filter_some, if_pos (reads _ e there)]
  refine ⟨fun mode id held waits idle => ?_, fun mode none fresh => ?_, fun mode id held => ?_,
    fun mode none fresh => ?_, fun x unnamed new => ?_⟩
  · have waiting := known.waitingJob_iff.mpr ⟨waits, idle⟩
    obtain ⟨h, was, -⟩ := job_of_waitingJob waiting
    have joined : hit now j q = some id := by
      unfold hit
      rw [mode]
      dsimp only
      rw [filtered, held, Option.filter_some, if_pos waiting]
    rw [addOne_eq, joined]
    dsimp only
    rw [if_pos mode]
    exact ⟨rfl, debounceJob_joined was⟩
  · have misses : hit now j q = Option.none := by
      unfold hit
      rw [mode]
      dsimp only
      rw [filtered]
      refine Option.filter_eq_none_iff.mpr fun id held waiting => ?_
      exact none id held (known.waitingJob_iff.mp waiting)
    exact addOne_added (by rw [mode]; exact nofun) misses fresh
  · have joined : hit now j q = some id := by
      unfold hit
      rw [mode]
      dsimp only
      rw [filtered, held]
    rw [addOne_eq, joined]
    dsimp only
    rw [if_neg (by rw [mode]; exact nofun)]
    exact ⟨rfl, rfl⟩
  · have misses : hit now j q = Option.none := by
      unfold hit
      rw [mode]
      dsimp only
      rw [filtered, none]
    exact addOne_added (by rw [mode]; exact nofun) misses fresh
  · rw [addOne_eq] at unnamed new ⊢
    cases joined : hit now j q with
    | some id =>
        rw [joined] at unnamed
        dsimp only at unnamed ⊢
        split at unnamed
        next mode =>
          rw [if_pos mode]
          exact debounceJob_same fun same => unnamed (same ▸ rfl)
        next mode =>
          rw [if_neg mode]
          exact .refl x _
    | none =>
        rw [joined] at new
        dsimp only at new ⊢
        have same := @addJob_same m q x now paused j
        cases added : addJob m now paused j.toNewJob q with
        | mk stored q' =>
            rw [added] at same new
            cases stored with
            | true =>
                dsimp only
                split
                · exact same (new rfl)
                · exact same (new rfl)
            | false =>
                have still : q' = q := by
                  unfold addJob at added
                  split at added
                  · cases added
                    rfl
                  · dsimp only at added
                    split at added
                    · cases added
                    · cases added
                rw [still]
                exact .refl x _

end Turn

/-! What the client sends: a key comes with a generated id. -/

theorem resolveDedupe_ok {options : AddOptions} {call : String} {queue : Utf16} {d : ResolvedDedupe}
    (done : resolveDedupe options call queue = .ok d) :
    (d.mode ≠ .none → options.id.isUndefined = true) ∧
    (d.mode = .debounce → options.atDate.isUndefined = true ∧ d.ttlMs = d.waitMs + debounceGraceMs) := by
  unfold resolveDedupe at done
  dsimp only at done
  split at done
  · cases done
    exact ⟨fun keyed => absurd rfl keyed, nofun⟩
  · split at done
    · exact absurd done nofun
    · split at done
      · split at done
        · exact absurd done nofun
        next id =>
          split at done
          · exact absurd done nofun
          · split at done
            · exact absurd done nofun
            next at_ =>
              obtain ⟨⟨key, ms⟩, -, is⟩ := bind_ok done
              cases is
              refine ⟨fun _ => by simpa using id, fun _ => ⟨by simpa using at_, rfl⟩⟩
      · split at done
        · exact absurd done nofun
        next id =>
          obtain ⟨⟨key, ms⟩, -, is⟩ := bind_ok done
          cases is
          exact ⟨fun _ => by simpa using id, nofun⟩

/-- An add with a key is under a generated id, and a debounce's wait is its delay. -/
theorem resolveAdd_dedupe {options : AddOptions} {uuid : Utf16} {call : String} {queue : Utf16}
    {grouped : Bool} {r : ResolvedAdd}
    (done : resolveAdd options uuid call queue grouped = .ok r) :
    (r.dedupe.mode ≠ .none → r.id = uuid) ∧
    (r.dedupe.mode = .debounce → r.delayMs = r.dedupe.waitMs ∧ r.atMs = -1 ∧
      r.dedupe.ttlMs = r.dedupe.waitMs + debounceGraceMs) := by
  unfold resolveAdd at done
  obtain ⟨id, idOk, done⟩ := bind_ok done
  obtain ⟨priority, -, done⟩ := bind_ok done
  dsimp only at done
  split at done
  · exact absurd done nofun
  obtain ⟨atMs, atOk, done⟩ := bind_ok done
  obtain ⟨delayMs, -, done⟩ := bind_ok done
  obtain ⟨timeoutMs, -, done⟩ := bind_ok done
  obtain ⟨dedupe, dedupeOk, done⟩ := bind_ok done
  obtain ⟨group, -, done⟩ := bind_ok done
  cases done
  obtain ⟨generated, debounce⟩ := resolveDedupe_ok dedupeOk
  refine ⟨fun keyed => ?_, fun mode => ?_⟩
  · unfold resolveId at idOk
    rw [if_pos (generated keyed)] at idOk
    exact (Except.ok.inj idOk).symm
  · obtain ⟨none, ttl⟩ := debounce mode
    unfold resolveAt at atOk
    rw [if_pos none] at atOk
    exact ⟨if_pos mode, (Except.ok.inj atOk).symm, ttl⟩

theorem addAll_append (now : Nat) (paused : Bool) (before after : List AddJob) (q : Keys) :
    addAll m now paused (before ++ after) q =
      ((addAll m now paused before q).1 ++
        (addAll m now paused after (addAll m now paused before q).2).1,
      (addAll m now paused after (addAll m now paused before q).2).2) := by
  induction before generalizing q with
  | nil => rfl
  | cons j before ih =>
      have rest := ih (addOne m now paused j q).2
      simp only [List.cons_append, addAll, rest]

/-- The id a key that was set so names, while it lives. -/
def named (now : Nat) (set : List Expiring) : Option String :=
  set.getLast?.bind fun e => if e.expires < now then none else some e.value

/-- Every add of every run, at its turn in its batch: a debounce joins the job its key names
when that job waits and has not run since it was created, and adds its own otherwise; a throttle
adds its own when the key names none. No other job is changed. -/
theorem run_dedupes (m : GroupArgs) (calls : List Timed) (us : Nat) (before : List AddJob)
    (j : AddJob) (after : List AddJob) (q' : Keys)
    (sends : Sends NewJob.Attemptable (calls ++ [(us, .add (before ++ j :: after))]))
    (keyed : Keyed (calls ++ [(us, .add (before ++ j :: after))]))
    (marker : (run m calls).groupModeCheck m = some q') :
    let now := us / 1000
    let (replies, q) := addAll m now q'.paused before q'
    let (r, q₁) := addOne m now q'.paused j q
    let (rest, q₂) := addAll m now q'.paused after q₁
    step m (us, .add (before ++ j :: after)) (run m calls) = (.added (replies ++ r :: rest), q₂) ∧
      Dedupes m now (history (log m calls) ++ addMarks before replies)
        (named now (settings j.dedupeKey (log m calls) ++
          addSets j.dedupeKey now before replies)) j q r q₁ := by
  have sent : Sends NewJob.Attemptable calls := fun c mem => sends c (List.mem_append_left _ mem)
  have last : (us, Call.add (before ++ j :: after)) ∈
      calls ++ [(us, .add (before ++ j :: after))] := List.mem_append_right _ (List.mem_singleton_self _)
  have jobs : ∀ d ∈ before ++ j :: after, d.toNewJob.Attemptable := sends _ last
  have ids : ∀ d ∈ before ++ j :: after, d.Keyed := keyed _ last
  -- What the log says of the keys and of the jobs, where the script begins.
  have known := (Known.empty m).leads (run_leads calls sent fun _ attemptable => attemptable.1)
  rw [List.nil_append] at known
  have held := (show Held (fun _ => []) Keys.empty from ⟨fun _ => rfl, fun _ _ is => absurd is nofun⟩).runFrom
    (m := m) calls fun c mem => keyed c (List.mem_append_left _ mem)
  have board := (groupModeCheck_toBoard marker).1
  have marked : Known m (history (log m calls)) q'.toBoard := board ▸ known
  have keys : Held (fun key => settings key (log m calls)) q' :=
    ⟨fun key => marked_dedupe marker ▸ held.last key, marked_dedupe marker ▸ held.isId⟩
  -- And at the job's turn.
  have turn := marked.leads (@addAll_leads m _ (us / 1000) q'.paused _ before
    marked.counted.sane (fun d mem => jobs d (List.mem_append_left _ mem))
    fun _ attemptable => attemptable.1)
  have now_ := keys.addAll (m := m) (us / 1000) q'.paused before fun d mem =>
    ids d (List.mem_append_left _ mem)
  have dedupes := @addOne_dedupes m _ _ (us / 1000) q'.paused j turn
    now_.isId
  dsimp only
  refine ⟨?_, ?_⟩
  · simp only [step, exec, guarded, marker, answering, add, addAll_append]
    rfl
  · rw [Keys.heldBy, now_.last j.dedupeKey] at dedupes
    exact dedupes

/-- A job that waits under the key `k`. -/
def waitsUnder : List Timed :=
  [(0, .add [{ id := "a", data := "1", priority := 5, attempts := 3, delayMs := 10
               mode := .debounce, dedupeKey := "k", ttlMs := 86400010 }])]

theorem run_dedupes_waitsUnder :
    let again : AddJob := { id := "b", data := "2", priority := 0, attempts := 3, delayMs := 20
                            mode := .debounce, dedupeKey := "k", ttlMs := 86400020 }
    (step ⟨false, 0⟩ (2000, .add [again]) (run ⟨false, 0⟩ waitsUnder)).1 = .added [.held "a"] ∧
      Joined 2 "a" again (run ⟨false, 0⟩ waitsUnder)
        (step ⟨false, 0⟩ (2000, .add [again]) (run ⟨false, 0⟩ waitsUnder)).2 := by
  intro again
  have sends : Sends NewJob.Attemptable (waitsUnder ++ [(2000, .add [again])]) := by
    intro c mem
    simp only [waitsUnder, List.cons_append, List.nil_append, List.mem_cons, List.not_mem_nil,
      or_false] at mem
    rcases mem with rfl | rfl
    all_goals
      intro j mem
      rw [List.mem_singleton.mp mem]
      refine ⟨?_, by decide⟩
      change groupSound (some "") = true
      decide
  have keyed : Keyed (waitsUnder ++ [(2000, .add [again])]) := by
    intro c mem
    simp only [waitsUnder, List.cons_append, List.nil_append, List.mem_cons, List.not_mem_nil,
      or_false] at mem
    rcases mem with rfl | rfl
    all_goals
      intro j mem _
      rw [List.mem_singleton.mp mem]
      decide
  obtain ⟨steps, dedupes⟩ := run_dedupes ⟨false, 0⟩ waitsUnder 2000 [] again [] _ sends keyed rfl
  obtain ⟨held, joined⟩ := dedupes.joins rfl "a" (by decide) (.inr (by decide)) ⟨by decide, by decide⟩
  rw [held] at steps
  exact ⟨congrArg Prod.fst steps, congrArg Prod.snd steps ▸ joined⟩

/-- A job under a throttle of an hour, claimed; then a debounce and a throttle under the key. -/
def mixed : List Timed :=
  let job (id : String) (mode : DedupeMode) (ttlMs : Nat) : AddJob :=
    { id, data := "null", priority := 0, attempts := 1, delayMs := 10
      mode, dedupeKey := "k", ttlMs }
  [(0, .add [job "a" .throttle 3600000]), (20000, .claim 30000 none ["t"]),
    (30000, .add [job "b" .debounce (10 + debounceGraceMs)]),
    (40000, .add [job "c" .throttle 3600000])]

/-- While the key that the throttle set lives, a debounce under it adds a job, and a later
throttle answers that job. -/
theorem debounce_under_throttle :
    settings "k" (log ⟨false, 0⟩ (mixed.take 2)) = [⟨"a", 3600000⟩] ∧
      ((log ⟨false, 0⟩ mixed).drop 2).map Prod.snd = [.added [.added], .added [.held "b"]] := by
  decide +kernel

end NxgtData.Queue
