import NxgtData.Queue.Wake

/-!
No lost wake-up. Workers block on `wake` and each token wakes one; whoever popped
a token owes the queue a claim. A script that opens work leaves a token unless
the queue is paused, and a claim settles the token by what it finds claimable at
its end, so claimable work always has a token or a worker on its way.
-/
namespace NxgtData.Queue
open Decimal Gcra

variable {m : GroupArgs} {q q' : Keys}

/-- Claimable work is work by the claim's own measure. -/
theorem Sane.claimable (hb : Sane m q.toBoard) (work : q.Work m) : q.claimable m = true := by
  unfold Board.Work at work
  unfold Keys.claimable
  split
  next hm =>
    rw [if_pos hm] at work
    obtain ⟨g, claimable⟩ := work
    have turns := (hb.grouped hm).turns
    have listed := (turns.listed g).mpr (turns.queued g id claimable)
    simpa using List.length_pos_of_mem listed
  next hm =>
    rw [if_neg hm] at work
    simpa using SortedSet.card_pos_iff.mpr work

/-- What holds of the wake list between scripts, where `owed` says that someone
who popped a token still owes its claim. -/
structure Awake (m : GroupArgs) (owed : Prop) (q : Keys) : Prop where
  mode : q.groupsMode = none ∨ q.groupsMode = some m.mode
  one : q.wake ≤ 1
  token : q.paused = false → q.Work m → 0 < q.wake ∨ owed

variable {owed : Prop}

theorem Awake.hands (h : Awake m owed q) (hands : Hands m q q') : Awake m owed q' where
  mode := by rw [hands.mode]; exact h.mode
  one := hands.one h.one
  token := by
    intro running work
    rw [hands.paused] at running
    rcases hands.opens running work with before | token
    · exact (h.token running before).imp hands.kept id
    · exact Or.inl token

theorem Awake.weaken {owed' : Prop} (h : Awake m owed q) (owes : owed → owed') :
    Awake m owed' q :=
  ⟨h.mode, h.one, fun running work => (h.token running work).imp id owes⟩

theorem settleWake_signals (retry : Int) (q : Keys) :
    (settleWake m retry q).paused = q.paused ∧ (settleWake m retry q).groupsMode = q.groupsMode := by
  unfold settleWake
  split
  next =>
    have woken := wakeUp_signals q
    simp only [Keys.signals, Prod.mk.injEq] at woken
    exact woken.2
  next => exact ⟨rfl, rfl⟩

theorem settleWake_awake (hb : Sane m q.toBoard)
    (mode : q.groupsMode = none ∨ q.groupsMode = some m.mode) (one : q.wake ≤ 1) :
    Awake m False (settleWake m (-1) q) := by
  refine ⟨by rwa [(settleWake_signals (-1) q).2], ?_, ?_⟩ <;> unfold settleWake <;> split
  next =>
    have woken : q.wakeUp.wake = max 1 q.wake := congrArg Prod.fst (wakeUp_signals q)
    omega
  next => simp
  next =>
    have woken : q.wakeUp.wake = max 1 q.wake := congrArg Prod.fst (wakeUp_signals q)
    exact fun _ _ => Or.inl (by omega)
  next asleep =>
    intro running work
    rw [show q.paused = false from running, hb.claimable work] at asleep
    exact absurd asleep (by simp)

/-- A claim on a queue without a rate ends with the token its work asks for. -/
theorem claim_awake {us n lease : Nat} {tokens : List String} (hb : Sane m q.toBoard)
    (mode : q.groupsMode = none ∨ q.groupsMode = some m.mode) (one : q.wake ≤ 1) :
    Awake m False (claim m us n lease tokens none q).2 := by
  have sane := (claim_leads (Q := fun _ _ => True) us n lease tokens none hb).sane hb
  have popped := claimPop_keeps (m := m) (q := q) (f := Keys.signals) (fun _ _ _ => rfl) (us / 1000)
    us n lease tokens none
  have ends : (claim m us n lease tokens none q).2 = settleWake m (-1)
      (claimPop m (us / 1000) us n lease tokens none (claimReady m (us / 1000) q)).q := by
    simp only [claim, charge, retryAfter]
  rw [ends] at sane ⊢
  generalize (claimPop m (us / 1000) us n lease tokens none (claimReady m (us / 1000) q)).q = q'
    at popped sane
  simp only [Keys.signals, Prod.mk.injEq] at popped
  rw [settleWake_toBoard] at sane
  exact settleWake_awake sane (by rwa [popped.2.2]) (popped.1.trans_le one)

theorem settleClaim_awake (us lease : Nat) (freed : Bool) {claimToken : String}
    (hb : Sane m q.toBoard) (mode : q.groupsMode = none ∨ q.groupsMode = some m.mode)
    (one : q.wake ≤ 1) (carries : claimToken ≠ "") :
    Awake m False (settleClaim m us lease claimToken none freed q).2 := by
  unfold settleClaim
  rw [if_pos carries]
  exact claim_awake hb mode one

/-! The queue with its workers. -/

/-- The queue, and the workers that popped a token of `wake` and have run no
claim since. -/
structure Workers where
  q : Keys := .empty
  holding : List String := []

inductive WorkerStep where
  /-- A script that the worker or another client calls at a reading of the clock. -/
  | call (worker : String) (c : Timed)
  /-- The worker's `BLPOP` on `wake`, which waits while the list is empty. -/
  | blpop (worker : String)

/-- One step of the queue with its workers. -/
def workerStep (m : GroupArgs) : WorkerStep → Workers → Workers
  | .call worker c, w =>
      { q := (step m c w.q).2
        holding := if c.2.claims then w.holding.filter (· ≠ worker) else w.holding }
  | .blpop worker, w =>
      if w.q.wake = 0 then w
      else { q := { w.q with wake := w.q.wake - 1 }, holding := w.holding ++ [worker] }

def runWorkers (m : GroupArgs) (steps : List WorkerStep) : Workers :=
  steps.foldl (fun w s => workerStep m s w) {}

/-- A claim under no rate, if the script runs one. -/
def Call.Unlimited : Call → Prop
  | .claim _ rate _ | .complete _ _ _ _ _ _ _ rate | .fail _ _ _ _ _ _ _ rate => rateOf rate = none
  | _ => True

/-- What is asked of each call: a group the reader accepts, and no rate. -/
def WorkerStep.Admissible : WorkerStep → Prop
  | .call _ c => c.2.Sends NewJob.GroupSound ∧ c.2.Unlimited
  | .blpop _ => True

theorem Awake.marked (h : Awake m owed q) (marked : Marked m q q') : Awake m owed q' := by
  rcases marked with rfl | marker
  · exact h
  · unfold Keys.groupModeCheck at marker
    split at marker
    next mode =>
      split at marker
      next => cases marker
      next =>
        cases marker
        exact h
    next =>
      cases marker
      exact ⟨Or.inr rfl, h.one, h.token⟩

/-- The marker check passes in a run under one mode. -/
theorem Awake.guarded (h : Awake m owed q) {owed' : Prop} {script : Keys → Reply × Keys}
    (hb : Sane m q.toBoard)
    (runs : ∀ q : Keys, Sane m q.toBoard → Awake m owed q → Awake m owed' (script q).2) :
    Awake m owed' (guarded m script q).2 := by
  have passes : ∃ q', q.groupModeCheck m = some q' := by
    unfold Keys.groupModeCheck
    rcases h.mode with mode | mode <;> simp [mode]
  obtain ⟨q', marker⟩ := passes
  have board := (groupModeCheck_toBoard marker).1
  unfold Queue.guarded
  rw [marker]
  exact runs q' (by rwa [board]) (h.marked (Or.inr marker))

theorem resume_awake (hb : Sane m q.toBoard) (h : Awake m owed q) : Awake m owed (resume m q) := by
  have running : Awake m (owed ∨ q.Work m) { q with paused := false } :=
    ⟨h.mode, h.one, fun _ work => Or.inr (Or.inr work)⟩
  unfold resume
  dsimp only
  split
  next =>
    have woken := (running.hands ((Hands.refl _).woken true))
    have token : ({ q with paused := false } : Keys).wakeUp.wake = max 1 q.wake :=
      congrArg Prod.fst (wakeUp_signals { q with paused := false })
    exact ⟨woken.mode, woken.one, fun _ _ => Or.inl (by omega)⟩
  next idle =>
    refine ⟨running.mode, running.one, fun _ work => absurd (hb.claimable work) ?_⟩
    have none : ({ q with paused := false } : Keys).claimable m = false := by
      cases claimable : ({ q with paused := false } : Keys).claimable m with
      | false => rfl
      | true => simp [claimable] at idle
    rw [show q.claimable m = ({ q with paused := false } : Keys).claimable m from rfl, none]
    simp

/-- A script that runs a claim leaves nothing owed, and the others owe on. -/
theorem exec_awake {us : Nat} (c : Call) (unlimited : c.Unlimited) (hb : Sane m q.toBoard)
    (h : Awake m owed q) : Awake m (owed ∧ c.claims = false) (exec m us c q).2 := by
  cases claims : c.claims with
  | false =>
      suffices running : Awake m owed (exec m us c q).2 from running.weaken fun owes => ⟨owes, rfl⟩
      cases switches : c.switches with
      | false =>
          obtain ⟨q', marked, hands⟩ := exec_hands (m := m) (q := q) us c claims switches
          exact (h.marked marked).hands hands
      | true =>
          cases c with
          | pause => exact ⟨h.mode, h.one, by simp [exec, pause]⟩
          | resume => exact h.guarded hb fun q hb h => resume_awake hb h
          | _ => simp [Call.switches] at switches
  | true =>
      suffices settled : Awake m False (exec m us c q).2 from settled.weaken False.elim
      cases c with
      | claim lease rate tokens =>
          simp only [exec, show rateOf rate = none from unlimited]
          exact h.guarded hb fun q hb h => claim_awake hb h.mode h.one
      | complete id token keepAge keepCount lease claimToken result rate =>
          have carries : claimToken ≠ "" := by simpa [Call.claims] using claims
          simp only [exec, show rateOf rate = none from unlimited]
          refine h.guarded hb fun q hb h => ?_
          have settled := completeSettle_leads (Q := fun _ _ => True) (us / 1000) id token keepAge
            keepCount result hb
          exact settleClaim_awake us lease _ (q := { q with toBoard := _ }) (settled.sane hb) h.mode h.one
            carries
      | fail id token error retryIn keepFailed lease claimToken rate =>
          have carries : claimToken ≠ "" := by simpa [Call.claims] using claims
          simp only [exec, show rateOf rate = none from unlimited]
          refine h.guarded hb fun q hb h => ?_
          let settle := failSettle m (us / 1000) id token error retryIn keepFailed q.toBoard
          have settled := failSettle_leads (Q := fun _ _ => True) (us / 1000) id token error retryIn
            keepFailed hb
          have claimed := settleClaim_awake us lease settle.1.freed (q := { q with toBoard := settle.2 }) (settled.sane hb) h.mode h.one carries
          exact claimed.hands ((Hands.refl _).woken _)
      | _ => simp [Call.claims] at claims

/-- The invariant of the queue with its workers. -/
structure Watched (m : GroupArgs) (w : Workers) : Prop where
  sane : Sane m w.q.toBoard
  awake : Awake m (w.holding ≠ []) w.q

theorem Watched.empty (m : GroupArgs) : Watched m {} := by
  refine ⟨.empty m, ⟨Or.inl rfl, Nat.zero_le 1, fun _ work => ?_⟩⟩
  unfold Board.Work at work
  split at work
  next =>
    obtain ⟨g, -, id, mem⟩ := work
    exact absurd mem (SortedSet.notMem_empty id)
  next =>
    obtain ⟨id, mem⟩ := work
    exact absurd mem (SortedSet.notMem_empty id)

theorem Watched.step {w : Workers} (h : Watched m w) {s : WorkerStep} (ok : s.Admissible) :
    Watched m (workerStep m s w) := by
  cases s with
  | call worker c =>
      have sane := (exec_leads c.1 c.2 ok.1 (fun _ sound => sound) h.sane).sane h.sane
      refine ⟨sane, (exec_awake c.2 ok.2 h.sane h.awake).weaken ?_⟩
      rintro ⟨owes, idle⟩
      simpa [workerStep, idle] using owes
  | blpop worker =>
      simp only [workerStep]
      split
      next => exact h
      next =>
        have one := h.awake.one
        exact ⟨h.sane, h.awake.mode, Nat.le_trans (Nat.sub_le _ _) one, by simp⟩

/-- No lost wake-up: while the queue runs, claimable work has a token in `wake`
or a worker that popped one and has yet to claim; and `wake` holds one at most. -/
theorem runWorkers_awake (m : GroupArgs) (steps : List WorkerStep)
    (ok : ∀ s ∈ steps, s.Admissible) :
    let w := runWorkers m steps
    (w.q.paused = false → w.q.Work m → 0 < w.q.wake ∨ w.holding ≠ []) ∧ w.q.wake ≤ 1 := by
  have watched : ∀ (steps : List WorkerStep) (w : Workers), (∀ s ∈ steps, s.Admissible) →
      Watched m w → Watched m (steps.foldl (fun w s => workerStep m s w) w) := by
    intro steps
    induction steps with
    | nil => exact fun _ _ h => h
    | cons s steps ih =>
        intro w ok h
        exact ih _ (fun s later => ok s (List.mem_cons_of_mem _ later))
          (h.step (ok s List.mem_cons_self))
  have awake := (watched steps {} ok (.empty m)).awake
  exact ⟨awake.token, awake.one⟩

/-- A job is added, and a worker pops its token. -/
def addAndPop : List WorkerStep :=
  [.call "client" (0, .add [{ id := "a", data := "null", priority := 0, attempts := 1 }]),
    .blpop "worker"]

theorem runWorkers_awake_addAndPop :
    0 < (runWorkers ⟨false, 0⟩ addAndPop).q.wake ∨
      (runWorkers ⟨false, 0⟩ addAndPop).holding ≠ [] := by
  refine (runWorkers_awake ⟨false, 0⟩ addAndPop ?_).1 (by decide) ?_
  · intro s mem
    simp only [addAndPop, List.mem_cons, List.not_mem_nil, or_false] at mem
    rcases mem with rfl | rfl
    · refine ⟨fun j mem => ?_, trivial⟩
      rw [List.mem_singleton.mp mem]
      change groupSound (some "") = true
      decide
    · trivial
  · have ready : "a" ∈ (runWorkers ⟨false, 0⟩ addAndPop).q.ready := by decide
    exact ⟨"a", ready⟩

end NxgtData.Queue
