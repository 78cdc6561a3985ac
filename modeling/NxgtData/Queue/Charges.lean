import NxgtData.Queue.Tokens
import NxgtData.Queue.Trust
import NxgtData.Rate.Exact

/-!
What a claim charges the queue's rate. It peeks, pops what the peek admits and
charges what it started, at one instant, so the charge is one the key allows. On
an ungrouped queue whose ready hashes are sound it starts all it pops.
-/
namespace NxgtData.Queue
open Gcra

variable {m : GroupArgs} {q : Keys} {us n lease : Nat} {tokens : List String} {rate : Rate}

/-! Admission. -/

/-- A claim may pop `k` jobs exactly when a charge of `k` is one the key allows. -/
theorem le_admitted_iff (running : q.paused = false) (priced : 0 < rate.unit) {k : Nat}
    (starts : 0 < k) :
    k ≤ admitted us n (some rate) q ↔
      k ≤ n ∧ (gcra q.rate us rate k true).1.allowed = true := by
  cases found : level rate us (get q.rate (us / 1000)) with
  | mk base d =>
      have one : gcra q.rate us rate 1 false = _ := gcra_eq found
      have first : rate.unit ≤ k * rate.unit := Nat.le_mul_of_pos_left _ starts
      have most : rate.tolerance = rate.burst * rate.unit := rfl
      rw [gcra_allowed found]
      unfold admitted peek
      rw [running, if_neg Bool.false_ne_true]
      dsimp only
      rw [one, Nat.one_mul]
      by_cases refused : rate.unit > rate.tolerance - d
      · rw [if_pos refused, Bool.not_false, if_pos rfl]
        omega
      · have fits : (k - 1) * rate.unit + rate.unit = k * rate.unit := by
          rw [← Nat.succ_mul]
          congr 1
          omega
        have count : k - 1 ≤ (rate.tolerance - d - rate.unit) / rate.unit ↔
            k * rate.unit ≤ rate.tolerance - d := by
          rw [Nat.le_div_iff_mul_le priced]
          omega
        have burst : k * rate.unit ≤ rate.burst * rate.unit → k ≤ rate.burst :=
          fun le => Nat.le_of_mul_le_mul_right le priced
        rw [if_neg refused, Bool.not_true, if_neg Bool.false_ne_true, left_eq _ priced]
        dsimp only
        omega

/-! A claim starts at most what is admitted. -/

section Started
variable {st st' : Claiming} {now : Nat} {id g : String}

theorem beginJob_jobs :
    (beginJob m now lease tokens id g st).jobs.length =
      st.jobs.length + if sound (st.q.hmget id) then 1 else 0 := by
  unfold beginJob
  dsimp only
  cases sound (st.q.hmget id) with
  | false => rfl
  | true => exact List.length_append

theorem beginJob_le : (beginJob m now lease tokens id g st).jobs.length ≤ st.jobs.length + 1 := by
  rw [beginJob_jobs]
  split <;> omega

theorem popTurn_le {served : Option String}
    (turn : popTurn m now lease tokens st = some (served, st')) :
    st'.jobs.length ≤ st.jobs.length + if served.isSome then 1 else 0 := by
  unfold popTurn at turn
  split at turn
  next => cases turn
  next g k taken =>
    dsimp only at turn
    split at turn
    next id l z popped =>
      cases turn
      let popping : Claiming := { st with q := { st.q with
        toBoard := Board.popGroup id g z { st.q.toBoard with groups := k } } }
      have begun : (beginJob m now lease tokens id g popping).jobs.length ≤
          popping.jobs.length + 1 := beginJob_le
      exact begun
    next =>
      cases turn
      exact le_rfl

theorem popGroups_le (takes got : Nat) :
    (popGroups m now lease tokens n takes got st).jobs.length ≤ st.jobs.length + (n - got) := by
  induction takes generalizing got st with
  | zero => exact Nat.le_add_right _ _
  | succ takes ih =>
      unfold popGroups
      split
      next more =>
        split
        next => exact Nat.le_add_right _ _
        next turn =>
          have first := popTurn_le turn
          simp only [Option.isSome_some, if_true] at first
          exact (ih (got + 1)).trans (by omega)
        next turn =>
          have first := popTurn_le turn
          simp only [Option.isSome_none, Bool.false_eq_true, if_false] at first
          exact (ih got).trans (by omega)
      next => exact Nat.le_add_right _ _

theorem begins_le (ids : List String) :
    (ids.foldl (fun st id => beginJob m now lease tokens id "" st) st).jobs.length ≤
      st.jobs.length + ids.length := by
  induction ids generalizing st with
  | nil => exact le_rfl
  | cons id ids ih =>
      have first : (beginJob m now lease tokens id "" st).jobs.length ≤ st.jobs.length + 1 :=
        beginJob_le
      rw [List.foldl_cons, List.length_cons]
      exact ih.trans (by omega)

end Started

/-! What a script does to the rate's key. -/

/-- A script that starts `k` jobs charges `k`, in one write that is not refused. -/
structure Charges (rate : Rate) (us k : Nat) (key key' : Option Stored) : Prop where
  idle : k = 0 → key' = key
  allowed : 0 < k → (gcra key us rate k true).1.allowed = true
  charged : 0 < k → key' = (gcra key us rate k true).2

theorem charges_none {key key' : Option Stored} (same : key' = key) : Charges rate us 0 key key' :=
  ⟨fun _ => same, fun starts => absurd starts (by decide), fun starts => absurd starts (by decide)⟩

theorem unworking_rate : Unworking Keys.rate := fun _ _ _ _ _ _ _ => rfl

theorem unscheduling_rate : Unscheduling Keys.rate := fun _ _ _ _ => rfl

theorem claim_jobs (lease : Nat) (tokens : List String) (rate : Option Rate) :
    (claim m us n lease tokens rate q).1.jobs.length ≤ admitted us n rate q := by
  have ready : (claimReady m (us / 1000) q).jobs.length = 0 := by
    rw [claimReady_jobs, List.length_nil]
  have same : admitted us n rate (claimReady m (us / 1000) q).q = admitted us n rate q :=
    claimReady_keeps (f := admitted us n rate) (fun _ _ _ => rfl) (us / 1000)
  unfold claim claimPop
  dsimp only
  rw [same]
  split
  next =>
    refine (popGroups_le _ 0).trans ?_
    rw [ready, Nat.zero_add, Nat.sub_zero]
  next =>
    split
    next =>
      have most := SortedSet.length_popMin_le (admitted us n rate q)
        (claimReady m (us / 1000) q).q.ready
      refine (begins_le _).trans ((Nat.add_le_add ready.le most).trans ?_)
      rw [Nat.zero_add]
    next => omega

theorem claim_charges (priced : 0 < rate.unit) (lease : Nat) (tokens : List String) :
    Charges rate us (claim m us n lease tokens (some rate) q).1.jobs.length q.rate
      (claim m us n lease tokens (some rate) q).2.rate := by
  have popped : (claimPop m (us / 1000) us n lease tokens (some rate)
      (claimReady m (us / 1000) q)).q.rate = q.rate :=
    claimPop_keeps (f := Keys.rate) (fun _ _ _ => rfl) (us / 1000) us n lease tokens (some rate)
  have most : (claim m us n lease tokens (some rate) q).1.jobs.length ≤
      admitted us n (some rate) q := claim_jobs lease tokens (some rate)
  have settled : ∀ retry (q : Keys), (settleWake m retry q).rate = q.rate := by
    intro retry q
    unfold settleWake
    split
    next => exact wakeUp_keeps unworking_rate q
    next => rfl
  unfold claim at most ⊢
  dsimp only at most ⊢
  rw [settled]
  generalize claimPop m (us / 1000) us n lease tokens (some rate) (claimReady m (us / 1000) q) = st
    at popped most ⊢
  generalize st.jobs.length = k at most ⊢
  cases k with
  | zero => exact charges_none popped
  | succ k =>
      have running : q.paused = false := by
        by_contra paused
        have stopped : admitted us n (some rate) q = 0 := by
          rw [admitted, if_pos (by simpa using paused)]
        omega
      have allowed := ((le_admitted_iff running priced (Nat.succ_pos k)).mp most).2
      refine ⟨fun none => absurd none (by omega), fun _ => allowed, fun _ => ?_⟩
      unfold charge
      dsimp only
      rw [if_pos (Nat.succ_pos k)]
      dsimp only
      rw [popped]

/-- The jobs a reply starts. -/
def Reply.started : Reply → Nat
  | .claimed claim | .completed _ claim | .failed _ _ claim => claim.jobs.length
  | _ => 0

/-- The scripts with a claim in them carry the queue's rate. -/
def Call.Rated (rate : Rate) : Call → Prop
  | .claim _ r _ | .complete _ _ _ _ _ _ _ r | .fail _ _ _ _ _ _ _ r => r = some rate
  | _ => True

theorem rateOf_some (priced : 0 < rate.unit) : rateOf (some rate) = some rate := by
  have per : rate.per ≠ 0 := fun zero => by
    rw [Rate.unit, zero] at priced
    exact absurd priced (by decide)
  rw [rateOf, Option.filter_some, decide_eq_true per, if_pos rfl]

theorem settleClaim_charges (priced : 0 < rate.unit) (claimToken : String) (freed : Bool) :
    Charges rate us (settleClaim m us lease claimToken (some rate) freed q).1.jobs.length q.rate
      (settleClaim m us lease claimToken (some rate) freed q).2.rate := by
  unfold settleClaim
  split
  next => exact claim_charges priced lease [claimToken]
  next =>
    refine charges_none ?_
    dsimp only
    split
    next => exact wakeUp_keeps unworking_rate q
    next => rfl

theorem guarded_charges {script : Keys → Reply × Keys}
    (charges : ∀ q, Charges rate us (script q).1.started q.rate (script q).2.rate) :
    Charges rate us (guarded m script q).1.started q.rate (guarded m script q).2.rate := by
  unfold guarded
  split
  next => exact charges_none rfl
  next q' marker =>
    rw [← marked_keeps unworking_rate marker]
    exact charges q'

theorem answering_charges {α : Type} {reply : α → Reply} (jobs : α → ClaimReply)
    (started : ∀ a, (reply a).started = (jobs a).jobs.length) {r : α × Keys} {key : Option Stored}
    (charges : Charges rate us (jobs r.1).jobs.length key r.2.rate) :
    Charges rate us (answering reply r).1.started key (answering reply r).2.rate := by
  unfold answering
  rw [started]
  exact charges

theorem complete_charges (priced : 0 < rate.unit) (id token : String) (keepAge keepCount : Int)
    (claimToken result : String) :
    Charges rate us
      (complete m us id token keepAge keepCount lease claimToken result (some rate) q).1.2.jobs.length
      q.rate
      (complete m us id token keepAge keepCount lease claimToken result (some rate) q).2.rate := by
  unfold complete
  generalize completeSettle m (us / 1000) id token keepAge keepCount result q.toBoard = settled
  exact settleClaim_charges (q := { q with toBoard := settled.2.2 }) priced claimToken settled.2.1

theorem fail_charges (priced : 0 < rate.unit) (id token error : String) (retryIn : Int)
    (keepFailed : Nat) (claimToken : String) :
    Charges rate us
      (fail m us id token error retryIn keepFailed lease claimToken (some rate) q).1.2.2.jobs.length
      q.rate
      (fail m us id token error retryIn keepFailed lease claimToken (some rate) q).2.rate := by
  unfold fail
  generalize failSettle m (us / 1000) id token error retryIn keepFailed q.toBoard = settled
  have claimed : Charges rate us (settleClaim m us lease claimToken (some rate) settled.1.freed
      { q with toBoard := settled.2 }).1.jobs.length q.rate (settleClaim m us lease claimToken
      (some rate) settled.1.freed { q with toBoard := settled.2 }).2.rate :=
    settleClaim_charges priced claimToken settled.1.freed
  dsimp only
  split
  next =>
    rw [wakeUp_keeps unworking_rate]
    exact claimed
  next => exact claimed

theorem fire_rate {now : Nat} {id : String} (due next attempts : Nat) (timeout : Int) :
    (fire m now id due next attempts timeout q).2.rate = q.rate := by
  unfold fire
  split
  next => rfl
  next =>
    split
    next => rfl
    next =>
      split
      next => rfl
      next =>
        dsimp only
        split
        next => rfl
        next => exact addJob_keeps unworking_rate now q.paused _

theorem guarded_started {script : Keys → Reply × Keys} (none : ∀ q, (script q).1.started = 0) :
    (guarded m script q).1.started = 0 := by
  unfold guarded
  split
  next => rfl
  next q' marker => exact none q'

theorem orError_started {α : Type} {reply : α → Reply} (none : ∀ a, (reply a).started = 0)
    (r : Except String α) : (orError reply r).started = 0 := by
  cases r with
  | error text => rfl
  | ok a => exact none a

/-- Every script charges the jobs it starts, and nothing else. -/
theorem exec_charges (priced : 0 < rate.unit) {c : Call} (rated : c.Rated rate) :
    Charges rate us (exec m us c q).1.started q.rate (exec m us c q).2.rate := by
  have still : (exec m us c q).1.started = 0 → (exec m us c q).2.rate = q.rate →
      Charges rate us (exec m us c q).1.started q.rate (exec m us c q).2.rate := by
    intro none same
    rw [none]
    exact charges_none same
  cases c with
  | claim lease r tokens =>
      cases rated
      rw [exec, rateOf_some priced]
      exact guarded_charges fun q =>
        answering_charges id (fun _ => rfl) (claim_charges priced lease tokens)
  | complete id token keepAge keepCount lease claimToken result r =>
      cases rated
      rw [exec, rateOf_some priced]
      exact guarded_charges fun q => answering_charges Prod.snd (fun _ => rfl)
        (complete_charges priced id token keepAge keepCount claimToken result)
  | fail id token error retryIn keepFailed lease claimToken r =>
      cases rated
      rw [exec, rateOf_some priced]
      exact guarded_charges fun q => answering_charges (fun a => a.2.2) (fun _ => rfl)
        (fail_charges priced id token error retryIn keepFailed claimToken)
  | add | release | cancel | retry | remove | resume =>
      exact still (guarded_started fun _ => rfl) (exec_keeps unworking_rate rfl rfl)
  | renew | pause | progress | stepBegin | stepCommit =>
      exact still rfl (exec_keeps unworking_rate rfl rfl)
  | fire id due next attempts timeout =>
      exact still (guarded_started fun _ => orError_started (fun _ => rfl) _)
        (guarded_keeps unworking_rate fun q => fire_rate due next attempts timeout)
  | defer id due untl =>
      exact still (orError_started (fun _ => rfl) _) (defer_keeps unscheduling_rate id due untl)
  | upsert s => exact still rfl (upsert_keeps unscheduling_rate s)
  | unschedule id => exact still rfl (unschedule_keeps unscheduling_rate id)
  | sync list =>
      exact still (orError_started (fun _ => rfl) _) (sync_keeps unscheduling_rate list)

/-! What a worker may count on: a reply starts no more jobs than its call asks for. -/

/-- The jobs a call asks for. -/
def Call.asks : Call → Nat
  | .claim _ _ tokens => tokens.length
  | .complete _ _ _ _ _ claimToken _ _ | .fail _ _ _ _ _ _ claimToken _ =>
      if claimToken = "" then 0 else 1
  | _ => 0

theorem settleClaim_jobs (claimToken : String) (rate : Option Rate) (freed : Bool) :
    (settleClaim m us lease claimToken rate freed q).1.jobs.length ≤
      if claimToken = "" then 0 else 1 := by
  unfold settleClaim
  split
  next => exact (claim_jobs lease [claimToken] rate).trans (admitted_le us 1 rate q)
  next => exact Nat.zero_le _

theorem guarded_asks {script : Keys → Reply × Keys} {most : Nat}
    (le : ∀ q, (script q).1.started ≤ most) : (guarded m script q).1.started ≤ most := by
  unfold guarded
  split
  next => exact Nat.zero_le most
  next q' marker => exact le q'

theorem exec_asks (c : Call) : (exec m us c q).1.started ≤ c.asks := by
  cases c with
  | claim lease r tokens =>
      exact guarded_asks fun q => (claim_jobs lease tokens (rateOf r)).trans (admitted_le us _ _ q)
  | complete id token keepAge keepCount lease claimToken result r =>
      refine guarded_asks fun q => ?_
      change (complete m us id token keepAge keepCount lease claimToken result (rateOf r)
        q).1.2.jobs.length ≤ _
      unfold complete
      exact settleClaim_jobs claimToken (rateOf r) _
  | fail id token error retryIn keepFailed lease claimToken r =>
      refine guarded_asks fun q => ?_
      change (fail m us id token error retryIn keepFailed lease claimToken (rateOf r)
        q).1.2.2.jobs.length ≤ _
      unfold fail
      exact settleClaim_jobs claimToken (rateOf r) _
  | add | release | cancel | retry | remove | resume => exact guarded_asks fun _ => Nat.zero_le 0
  | renew | pause | progress | stepBegin | stepCommit | upsert | unschedule => exact Nat.zero_le 0
  | fire => exact guarded_asks fun _ => (orError_started (fun _ => rfl) _).le
  | defer | sync => exact (orError_started (fun _ => rfl) _).le

/-! A claim whose ready hashes are sound starts each job it pops. -/

/-- What is sound stays so, and what comes to `ready` is. -/
structure Board.Refits (b b' : Board) : Prop where
  sound : ∀ id, sound (b.hmget id) = true → Queue.sound (b'.hmget id) = true
  ready : ∀ id ∈ b'.ready, id ∈ b.ready ∨ Queue.sound (b'.hmget id) = true

namespace Board.Refits
variable {b b' b'' : Board} {id : String}

theorem refl (b : Board) : b.Refits b := ⟨fun _ => id, fun _ => Or.inl⟩

theorem trans (h : b.Refits b') (k : b'.Refits b'') : b.Refits b'' where
  sound := fun id trusted => k.sound id (h.sound id trusted)
  ready := fun id mem => by
    rcases k.ready id mem with before | trusted
    · exact (h.ready id before).imp_right (k.sound id)
    · exact Or.inr trusted

/-- The boards differ neither in hashes nor in what is ready, but for what left. -/
theorem of_job (job : b'.job = b.job) (ready : ∀ id ∈ b'.ready, id ∈ b.ready) : b.Refits b' := by
  have same : ∀ id, b'.hmget id = b.hmget id := fun id => by rw [Board.hmget, Board.hmget, job]
  exact ⟨fun id trusted => same id ▸ trusted, fun id mem => Or.inl (ready id mem)⟩

/-- A write that keeps a sound hash sound. -/
theorem hset (id : String) {f : JobHash → JobHash} (keep : ∀ h, Queue.sound h = true → Queue.sound (f h) = true) :
    b.Refits (b.hset id f) := by
  refine ⟨fun x trusted => ?_, fun x mem => Or.inl mem⟩
  unfold Board.hset Board.hmget at *
  dsimp only
  by_cases own : x = id
  · subst own
    rw [Function.update_self]
    exact keep _ trusted
  · rw [Function.update_of_ne own]
    exact trusted

theorem hdel (id : String) {f : JobHash → JobHash} (keep : ∀ h, Queue.sound h = true → Queue.sound (f h) = true) :
    b.Refits (b.hdel id f) := by
  refine ⟨fun x trusted => ?_, fun x mem => Or.inl mem⟩
  unfold Board.hdel Board.hmget at *
  dsimp only
  by_cases own : x = id
  · subst own
    rw [Function.update_self]
    cases was : b.job x with
    | none =>
        rw [was] at trusted
        exact trusted
    | some h =>
        rw [was] at trusted
        exact keep h trusted
  · rw [Function.update_of_ne own]
    exact trusted

/-- Every id of `ready` has a hash that is sound. -/
theorem soundReady (h : b.Refits b') (trusted : ∀ id ∈ b.ready, Queue.sound (b.hmget id) = true) :
    ∀ id ∈ b'.ready, Queue.sound (b'.hmget id) = true := by
  intro id mem
  rcases h.ready id mem with before | sound
  · exact h.sound id (trusted id before)
  · exact sound

end Board.Refits

section Popped
variable {st : Claiming} {now : Nat} {id g : String}

theorem refuse_refits {b : Board} : b.Refits (b.refuse m now id) := by
  have left : b.Refits ((({ b with delayed := b.delayed.rem id }.readyRem m id (b.groupOf id)).activeRem
      m id (b.groupOf id)).2) := by
    refine .of_job (Board.activeRem_job ..) fun x mem => ?_
    have ready : x ∈ (b.ready.rem id) := by
      unfold Board.activeRem Board.readyRem at mem
      split at mem <;> exact mem
    exact (SortedSet.mem_rem.mp ready).1
  unfold Board.refuse
  dsimp only
  split
  next => exact left
  next =>
    have failed := left.trans (Board.Refits.hset id (f := fun h =>
      { h with
        state := some .failed
        error := some invalidError
        finished := some (toString now) }) fun _ sound => sound)
    have untaken := failed.trans
      (Board.Refits.hdel id (f := fun h => { h with token := none }) fun _ sound => sound)
    exact untaken.trans (.of_job rfl fun _ mem => mem)

theorem activeRem_refits {b : Board} : b.Refits (b.activeRem m id g).2 := by
  refine .of_job (Board.activeRem_job ..) fun x mem => ?_
  unfold Board.activeRem at mem
  split at mem <;> exact mem

theorem readyAgain_refits {q : Keys} {priority : Nat} (trusted : sound (q.hmget id) = true) :
    q.toBoard.Refits (Keys.readyAgain m id priority g q).2.toBoard := by
  have job := readyAgain_job (m := m) q id priority g
  have same : ∀ x, (Keys.readyAgain m id priority g q).2.hmget x = q.hmget x := fun x => by
    rw [Board.hmget, Board.hmget, job]
  refine ⟨fun x sound => same x ▸ sound, fun x mem => ?_⟩
  rcases SortedSet.mem_add.mp mem with rfl | before
  · exact Or.inr ((same x).symm ▸ trusted)
  · exact Or.inl before

theorem reclaimOne_refits : st.q.toBoard.Refits (reclaimOne m now st id).q.toBoard := by
  unfold reclaimOne
  dsimp only
  split
  next => exact refuse_refits
  next trusted =>
    have whole : sound (st.q.hmget id) = true := by simpa using trusted
    let freed := (st.q.toBoard.activeRem m id ((st.q.hmget id).group.getD "")).2.hdel id
      fun h => { h with token := none }
    have frees : st.q.toBoard.Refits freed :=
      activeRem_refits.trans (Board.Refits.hdel id fun _ sound => sound)
    split
    next =>
      let waiting : Keys := { st.q with
        toBoard := freed.hset id fun h => { h with state := some .waiting } }
      have sets : freed.Refits waiting.toBoard :=
        Board.Refits.hset id (f := fun h => { h with state := some .waiting }) fun _ sound => sound
      have waits := frees.trans sets
      have again : waiting.toBoard.Refits (Keys.readyAgain m id (number (st.q.hmget id).priority)
          ((st.q.hmget id).group.getD "") waiting).2.toBoard :=
        readyAgain_refits (waits.sound id whole)
      exact waits.trans again
    next =>
      have fails : freed.Refits (freed.hset id fun h =>
          { h with
            state := some .failed
            error := some lapsedError
            finished := some (toString now) }) :=
        Board.Refits.hset id fun _ sound => sound
      exact (frees.trans fails).trans (.of_job rfl fun _ mem => mem)

theorem promoteOne_refits : st.q.toBoard.Refits (promoteOne m now st id).q.toBoard := by
  unfold promoteOne
  dsimp only
  split
  next => exact refuse_refits
  next trusted =>
    have whole : sound (st.q.hmget id) = true := by simpa using trusted
    let taken : Board := { st.q.toBoard with delayed := st.q.delayed.rem id }
    let waiting : Keys := { st.q with
      toBoard := taken.hset id fun h => { h with state := some .waiting } }
    have takes : st.q.toBoard.Refits taken := .of_job rfl fun _ mem => mem
    have sets : taken.Refits waiting.toBoard :=
      Board.Refits.hset id (f := fun h => { h with state := some .waiting }) fun _ sound => sound
    have waits := takes.trans sets
    have again : waiting.toBoard.Refits (Keys.readyAgain m id (number (st.q.hmget id).priority)
        ((st.q.hmget id).group.getD "") waiting).2.toBoard :=
      readyAgain_refits (waits.sound id whole)
    exact waits.trans again

theorem foldl_refits {turn : Claiming → String → Claiming}
    (refits : ∀ (st : Claiming) id, st.q.toBoard.Refits (turn st id).q.toBoard)
    (ids : List String) (st : Claiming) :
    st.q.toBoard.Refits (ids.foldl turn st).q.toBoard := by
  induction ids generalizing st with
  | nil => exact .refl _
  | cons id ids ih => exact (refits st id).trans (ih (turn st id))

theorem claimReady_refits (now : Nat) : q.toBoard.Refits (claimReady m now q).q.toBoard := by
  have reclaimed : q.toBoard.Refits (reclaim m now { q }).q.toBoard :=
    foldl_refits (fun _ _ => reclaimOne_refits) _ { q }
  exact reclaimed.trans (foldl_refits (fun _ _ => promoteOne_refits) _ (reclaim m now { q }))

theorem beginJob_refits : st.q.toBoard.Refits (beginJob m now lease tokens id g st).q.toBoard := by
  unfold beginJob
  dsimp only
  split
  next => exact refuse_refits
  next =>
    exact (Board.Refits.hset id (f := fun h =>
      { h with
        state := some .active
        token := some (tokens.getD st.jobs.length "")
        attempt := some (toString (number (st.q.hmget id).attempt + 1)) })
      fun _ sound => sound_attempt sound _).trans (.of_job rfl fun _ mem => mem)

/-- Every popped job that is sound starts. -/
theorem begins_eq (ids : List String)
    (trusted : ∀ id ∈ ids, sound (st.q.hmget id) = true) :
    (ids.foldl (fun st id => beginJob m now lease tokens id "" st) st).jobs.length =
      st.jobs.length + ids.length := by
  induction ids generalizing st with
  | nil => rfl
  | cons id ids ih =>
      have first : (beginJob m now lease tokens id "" st).jobs.length =
          st.jobs.length + if sound (st.q.hmget id) then 1 else 0 := beginJob_jobs
      rw [if_pos (trusted id List.mem_cons_self)] at first
      have refits : st.q.toBoard.Refits (beginJob m now lease tokens id "" st).q.toBoard :=
        beginJob_refits
      rw [List.foldl_cons, ih fun x mem => refits.sound x (trusted x (List.mem_cons_of_mem _ mem)),
        first, List.length_cons]
      omega

/-- On an ungrouped queue whose ready hashes are sound a claim starts all that is
admitted, or all there is. -/
theorem claim_starts (ungrouped : m.grouped = false)
    (trusted : ∀ id ∈ q.ready, sound (q.hmget id) = true) (lease : Nat) (tokens : List String)
    (rate : Option Rate) :
    (claim m us n lease tokens rate q).1.jobs.length =
      min (admitted us n rate q) (claimReady m (us / 1000) q).q.ready.card := by
  have ready : (claimReady m (us / 1000) q).jobs = [] := claimReady_jobs q
  have refits : q.toBoard.Refits (claimReady m (us / 1000) q).q.toBoard :=
    claimReady_refits _
  have sounds := refits.soundReady trusted
  have same : admitted us n rate (claimReady m (us / 1000) q).q = admitted us n rate q :=
    claimReady_keeps (f := admitted us n rate) (fun _ _ _ => rfl) (us / 1000)
  unfold claim claimPop
  dsimp only
  rw [same, ungrouped]
  generalize claimReady m (us / 1000) q = st at ready sounds ⊢
  generalize admitted us n rate q = most
  let popping : Claiming := { st with q := { st.q with ready := (st.q.ready.popMin most).2 } }
  have popped : ((st.q.ready.popMin most).1.foldl
      (fun st id => beginJob m (us / 1000) lease tokens id "" st) popping).jobs.length =
      popping.jobs.length + (st.q.ready.popMin most).1.length :=
    begins_eq _ fun id mem => sounds id (SortedSet.mem_of_mem_popMin mem)
  have length : (st.q.ready.popMin most).1.length = min most st.q.ready.card := by
    rw [SortedSet.popMin, List.length_map, List.length_take]
    rfl
  rw [if_neg (by simp)]
  split
  next =>
    unfold popReady
    dsimp only
    rw [popped, length]
    change st.jobs.length + _ = _
    rw [ready, List.length_nil, Nat.zero_add]
  next none =>
    rw [ready, Nat.eq_zero_of_not_pos none, Nat.zero_min]
    rfl

end Popped

end NxgtData.Queue
