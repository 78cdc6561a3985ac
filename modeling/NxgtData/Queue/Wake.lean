import NxgtData.Queue.Work

/-!
What each script without a claim does to the list `wake`: a script that opens
work leaves a token unless the queue is paused, none takes one away, and none
lets the list grow past one.
-/
namespace NxgtData.Queue
open Decimal Gcra

variable {m : GroupArgs} {q q' q'' : Keys}

/-- The keys about waking: the wake list, the pause and the groups marker. -/
def Keys.signals (q : Keys) : Nat × Bool × Option String := (q.wake, q.paused, q.groupsMode)

theorem wakeUp_signals (q : Keys) :
    q.wakeUp.signals = (max 1 q.wake, q.paused, q.groupsMode) := by
  unfold Keys.wakeUp
  split
  next none => simp [Keys.signals, none]
  next some =>
    have : max 1 q.wake = q.wake := by omega
    simp [Keys.signals, this]

/-- A script part that leaves no opened work without a token. -/
structure Hands (m : GroupArgs) (q q' : Keys) : Prop where
  paused : q'.paused = q.paused
  mode : q'.groupsMode = q.groupsMode
  one : q.wake ≤ 1 → q'.wake ≤ 1
  kept : 0 < q.wake → 0 < q'.wake
  opens : q.paused = false → q'.Work m → q.Work m ∨ 0 < q'.wake
  appends : q.groups.list <+: q'.groups.list

namespace Hands

theorem refl (q : Keys) : Hands m q q := ⟨rfl, rfl, id, id, fun _ => Or.inl, List.prefix_rfl⟩

theorem trans (h : Hands m q q') (k : Hands m q' q'') : Hands m q q'' where
  paused := k.paused.trans h.paused
  mode := k.mode.trans h.mode
  one := k.one ∘ h.one
  kept := k.kept ∘ h.kept
  opens := by
    intro running work
    rcases k.opens (h.paused.trans running) work with before | token
    · exact (h.opens running before).imp id k.kept
    · exact Or.inr token
  appends := h.appends.trans k.appends

/-- No work is opened, and the token stays as it is. -/
theorem plain (signals : q'.signals = q.signals) (opens : Opens m false q.toBoard q'.toBoard) :
    Hands m q q' := by
  obtain ⟨wake, paused, mode⟩ : q'.wake = q.wake ∧ q'.paused = q.paused ∧
      q'.groupsMode = q.groupsMode := by
    simpa [Keys.signals] using signals
  refine ⟨paused, mode, wake ▸ id, wake ▸ id, fun _ work => Or.inl ?_, opens.appends⟩
  exact (opens.work work).resolve_right (by simp)

/-- A token follows the answer that work was opened. -/
theorem wakeUp {opened : Bool} (q' : Keys) (signals : q'.signals = q.signals)
    (opens : Opens m opened q.toBoard q'.toBoard) :
    Hands m q (if opened && !q'.paused then q'.wakeUp else q') := by
  obtain ⟨wake, paused, mode⟩ : q'.wake = q.wake ∧ q'.paused = q.paused ∧
      q'.groupsMode = q.groupsMode := by
    simpa [Keys.signals] using signals
  split
  next =>
    have woken := wakeUp_signals q'
    simp only [Keys.signals, Prod.mk.injEq] at woken
    have appends : q.groups.list <+: q'.wakeUp.groups.list := by
      rw [Keys.wakeUp_toBoard]
      exact opens.appends
    refine ⟨woken.2.1.trans paused, woken.2.2.trans mode, ?_, ?_, ?_, appends⟩ <;>
      rw [woken.1] <;> omega
  next asleep =>
    refine ⟨paused, mode, wake ▸ id, wake ▸ id, fun running work => Or.inl ?_, opens.appends⟩
    rw [paused, running] at asleep
    exact (opens.work work).resolve_right (by simpa using asleep)

/-- A token that nothing asked for does no harm. -/
theorem woken (h : Hands m q q') (b : Bool) : Hands m q (if b then q'.wakeUp else q') := by
  split
  next =>
    have woken := wakeUp_signals q'
    simp only [Keys.signals, Prod.mk.injEq] at woken
    refine h.trans ⟨woken.2.1, woken.2.2, ?_, ?_, fun _ work => Or.inl (by simpa using work),
      ?_⟩
    next => rw [woken.1]; omega
    next => rw [woken.1]; omega
    next => rw [Keys.wakeUp_toBoard]
  next => exact h

theorem poke {opened : Bool} (q' : Keys) (signals : q'.signals = q.signals)
    (opens : Opens m opened q.toBoard q'.toBoard) :
    Hands m q (if opened then q'.poke q.paused else q') := by
  have paused : q'.paused = q.paused := congrArg (·.2.1) signals
  have woken := wakeUp q' signals opens
  have same : (if opened then q'.poke q.paused else q') =
      if opened && !q'.paused then q'.wakeUp else q' := by
    unfold Keys.poke
    rw [paused]
    cases opened <;> cases q.paused <;> rfl
  rw [same]
  exact woken

theorem delayed (h : Hands m q q') (z : ZSet) : Hands m q { q' with delayed := z } :=
  h.trans (.plain rfl (Opens.congr rfl rfl))

theorem setDedupe (h : Hands m q q') (now : Nat) (key id : String) (ttl : Nat) :
    Hands m q (q'.setDedupe now key id ttl) :=
  h.trans (.plain rfl (Opens.congr rfl rfl))

end Hands

section Scripts
variable {now : Nat} {id token : String}

theorem addJob_hands (now : Nat) (j : NewJob) : Hands m q (addJob m now q.paused j q).2 := by
  unfold addJob
  split
  next => exact .refl q
  next =>
    dsimp only
    split
    next =>
      let b := q.toBoard.hset j.id fun _ => j.hash m now
      have written : Opens m false q.toBoard b := .congr rfl rfl
      let g := if m.grouped then j.group else ""
      let score := readyScore j.priority (q.seq + 1)
      exact Hands.poke { q with toBoard := (b.readyAdd m j.id score g).2, seq := q.seq + 1 } rfl
        (written.before (Opens.readyAdd _ _ _))
    next =>
      let b := q.toBoard.hset j.id fun _ => j.hash m now
      have poked : Hands m q (if Keys.isHead q.delayed (j.runAt now) then
          ({ q with toBoard := b } : Keys).poke q.paused else { q with toBoard := b }) :=
        Hands.poke _ rfl (.congr rfl rfl)
      exact poked.delayed _

theorem debounceJob_hands (j : AddJob) : Hands m q (debounceJob m now q.paused id j q) := by
  let runAt := now + j.delayMs
  let b := q.toBoard.hset id fun h =>
    { h with data := some j.data, state := some .delayed, runAt := some (toString runAt) }
  let b' := b.readyRem m id (b.groupOf id)
  have written : Opens m false q.toBoard b := .congr rfl rfl
  have opens : Opens m false q.toBoard b' := written.before (Opens.readyRem _ _)
  have poked : Hands m q (if Keys.isHead b'.delayed runAt then
      ({ q with toBoard := b' } : Keys).poke q.paused else { q with toBoard := b' }) :=
    .poke _ rfl ⟨fun work => Or.inl ((opens.work work).resolve_right (by simp)), opens.appends⟩
  exact (poked.delayed _).setDedupe _ _ _ _

theorem addOne_hands (now : Nat) (j : AddJob) : Hands m q (addOne m now q.paused j q).2 := by
  unfold addOne
  dsimp only
  split
  next =>
    split
    next => exact debounceJob_hands j
    next => exact .refl q
  next =>
    have added := addJob_hands (m := m) (q := q) now j.toNewJob
    split
    next q' eq =>
      rw [eq] at added
      dsimp only
      split
      next => exact added
      next => exact added.setDedupe _ _ _ _
    next q' eq =>
      rw [eq] at added
      exact added

theorem addAll_hands (jobs : List AddJob) : Hands m q (addAll m now q.paused jobs q).2 := by
  induction jobs generalizing q with
  | nil => exact .refl q
  | cons j jobs ih =>
      have first := addOne_hands (m := m) (q := q) now j
      have rest := ih (q := (addOne m now q.paused j q).2)
      rw [first.paused] at rest
      exact first.trans rest

theorem fire_hands {due next attempts : Nat} {timeout : Int} :
    Hands m q (fire m now id due next attempts timeout q).2 := by
  unfold fire
  split
  next => exact .refl q
  next =>
    split
    next => exact .refl q
    next =>
      split
      next => exact .refl q
      next =>
        dsimp only
        split
        next => exact .refl q
        next => exact (addJob_hands now _).trans (.plain rfl (Opens.congr rfl rfl))

/-! What a settle or a repair opens, it answers. -/

/-- A trim touches neither `ready` nor a group key. -/
theorem trim_keeps {α : Type} (place : Board → ZSet) (drop : Board → String → Board)
    (f : Board → α) (keeps : ∀ b id, f (drop b id) = f b) (now age count : Int) (b : Board) :
    f (trim place drop now age count b) = f b := by
  have dropped : ∀ (ids : List String) (b : Board), f (ids.foldl drop b) = f b := by
    intro ids
    induction ids with
    | nil => exact fun _ => rfl
    | cons id ids ih => exact fun b => (ih _).trans (keeps b id)
  unfold trim
  dsimp only
  split
  next =>
    split
    next => exact (dropped _ _).trans (dropped _ _)
    next => exact dropped _ _
  next => exact dropped _ _

theorem Opens.trimCompleted {opened : Bool} {b b' : Board} (h : Opens m opened b b')
    (now age count : Int) :
    Opens m opened b (trim Board.completed dropCompleted now age count b') :=
  h.after (.congr (trim_keeps _ dropCompleted Board.ready (fun _ _ => rfl) now age count b')
    (trim_keeps _ dropCompleted Board.groups (fun _ _ => rfl) now age count b'))

theorem Opens.trimFailed {opened : Bool} {b b' : Board} (h : Opens m opened b b')
    (now age count : Int) : Opens m opened b (trim Board.failed dropFailed now age count b') :=
  h.after (.congr (trim_keeps _ dropFailed Board.ready (fun _ _ => rfl) now age count b')
    (trim_keeps _ dropFailed Board.groups (fun _ _ => rfl) now age count b'))

theorem Opens.publish {opened : Bool} {b b' : Board} (h : Opens m opened b b') (e : Event) :
    Opens m opened b (b'.publish e) := h.after (.congr rfl rfl)

theorem completeSettle_opens (now : Nat) (id token : String) (keepAge keepCount : Int)
    (result : String) (b : Board) :
    Opens m (completeSettle m now id token keepAge keepCount result b).2.1 b
      (completeSettle m now id token keepAge keepCount result b).2.2 := by
  unfold completeSettle
  split
  next => exact .refl b false
  next =>
    dsimp only
    refine Opens.publish ?_ _
    have left := Opens.activeRem (m := m) (b := b) id (b.groupOf id)
    generalize (b.activeRem m id (b.groupOf id)).2 = b' at left ⊢
    split
    next =>
      refine Opens.trimCompleted ?_ _ _ _
      exact left.after (.congr rfl rfl)
    next =>
      refine Opens.trimCompleted ?_ _ _ _
      exact left.after (.congr rfl rfl)

theorem failSettle_opens (now : Nat) (id token error : String) (retryIn : Int)
    (keepFailed : Nat) (b : Board) :
    Opens m (failSettle m now id token error retryIn keepFailed b).1.freed b
      (failSettle m now id token error retryIn keepFailed b).2 := by
  unfold failSettle
  dsimp only
  split
  next => exact .refl b false
  next =>
    have left := Opens.activeRem (m := m) (b := b) id (b.groupOf id)
    generalize (b.activeRem m id (b.groupOf id)).2 = b' at left ⊢
    split
    next => exact left.after (.congr rfl rfl)
    next =>
      dsimp only
      refine Opens.publish ?_ _
      refine Opens.trimFailed ?_ _ _ _
      exact left.after (.congr rfl rfl)

/-- A settle that carries no claim wakes for the slot it freed. -/
theorem settleClaim_hands (us lease : Nat) (rate : Option Rate) {freed : Bool} {b : Board}
    (opens : Opens m freed q.toBoard b) :
    Hands m q (settleClaim m us lease "" rate freed { q with toBoard := b }).2 := by
  unfold settleClaim
  exact .wakeUp { q with toBoard := b } rfl opens

theorem complete_hands (us lease : Nat) (keepAge keepCount : Int) (result : String)
    (rate : Option Rate) :
    Hands m q (complete m us id token keepAge keepCount lease "" result rate q).2 := by
  have opens := completeSettle_opens (m := m) (us / 1000) id token keepAge keepCount result q.toBoard
  unfold complete
  exact settleClaim_hands us lease rate opens

theorem fail_hands (us keepFailed lease : Nat) (error : String) (retryIn : Int)
    (rate : Option Rate) :
    Hands m q (fail m us id token error retryIn keepFailed lease "" rate q).2 := by
  have opens := failSettle_opens (m := m) (us / 1000) id token error retryIn keepFailed q.toBoard
  unfold fail
  exact (settleClaim_hands us lease rate opens).woken _

theorem readyAgain_opens (priority : Nat) (g : String) :
    Opens m (Keys.readyAgain m id priority g q).1 q.toBoard
      (Keys.readyAgain m id priority g q).2.toBoard := Opens.readyAdd id g _

theorem releaseOne_opens (id token : String) :
    Opens m (releaseOne m id token q).2.1 q.toBoard (releaseOne m id token q).2.2.toBoard := by
  unfold releaseOne
  dsimp only
  split
  next =>
    have left := Opens.activeRem (m := m) (b := q.toBoard) id ((q.hmget id).group.getD "")
    generalize (q.toBoard.activeRem m id ((q.hmget id).group.getD "")).2 = b at left ⊢
    refine left.trans (Opens.before ?_ (readyAgain_opens _ _))
    exact .congr rfl rfl
  next => exact .refl _ false

theorem releaseAll_opens (jobs : List (String × String)) :
    (releaseAll m jobs q).2.2.signals = q.signals ∧
      Opens m (releaseAll m jobs q).2.1 q.toBoard (releaseAll m jobs q).2.2.toBoard := by
  induction jobs generalizing q with
  | nil => exact ⟨rfl, .refl _ false⟩
  | cons job jobs ih =>
      have first := releaseOne_opens (m := m) (q := q) job.1 job.2
      have signals : (releaseOne m job.1 job.2 q).2.2.signals = q.signals := by
        unfold releaseOne
        dsimp only
        split <;> rfl
      obtain ⟨same, rest⟩ := ih (q := (releaseOne m job.1 job.2 q).2.2)
      exact ⟨same.trans signals, first.trans rest⟩

theorem release_hands (jobs : List (String × String)) : Hands m q (release m jobs q).2 := by
  obtain ⟨signals, opens⟩ := releaseAll_opens (m := m) (q := q) jobs
  exact .wakeUp _ signals opens

theorem cancelJob_opens {freed : Bool} {b b' : Board} (done : cancelJob m id b = some (freed, b')) :
    Opens m freed b b' := by
  simp only [cancelJob] at done
  split at done
  next =>
    split at done <;> cases done
    exact (Opens.readyRem id (b.groupOf id)).after (.congr rfl rfl)
  next =>
    split at done <;> cases done
    exact .congr rfl rfl
  next =>
    split at done <;> cases done
    exact (Opens.activeRem id (b.groupOf id)).after (.congr rfl rfl)
  next => cases done

theorem cancel_hands : Hands m q (cancel m id q).2 := by
  unfold cancel
  split
  next => exact .refl q
  next freed b done => exact .wakeUp { q with toBoard := b } rfl (cancelJob_opens done)

theorem retry_hands {fresh : Bool} : Hands m q (retry m now id fresh q).2 := by
  unfold retry
  dsimp only
  split
  next => exact .refl q
  next =>
    split
    next => exact .refl q
    next =>
      split
      next => exact .refl q
      next =>
        refine .wakeUp _ ?_ ?_
        · split <;> rfl
        · split
          next =>
            refine Opens.after (Opens.before ?_ (readyAgain_opens _ _)) (.congr rfl rfl)
            exact .congr rfl rfl
          next =>
            refine Opens.before ?_ (readyAgain_opens _ _)
            exact .congr rfl rfl

theorem remove_opens (b : Board) : Opens m false b (remove m id b).2 := by
  unfold remove
  split
  next => exact .refl b false
  next => exact (Opens.readyRem id (b.groupOf id)).after (.congr rfl rfl)

theorem renew_opens {lease : Nat} (entries : List (String × String)) (b : Board) :
    Opens m false b (renew now lease entries b).2 := by
  induction entries generalizing b with
  | nil => exact .refl b false
  | cons entry entries ih =>
      unfold renew
      split
      next =>
        refine Opens.before ?_ (ih _)
        split <;> exact .congr rfl rfl
      next => exact ih b

theorem progress_opens {value : String} (b : Board) :
    Opens m false b (progress id token value b).2 := by
  unfold progress
  split <;> exact .congr rfl rfl

theorem stepBegin_opens {name : String} {lease : Nat} (b : Board) :
    Opens m false b (stepBegin now id token name lease b).2 := by
  unfold stepBegin
  split
  next => exact .refl b false
  next =>
    split
    next => exact .refl b false
    next =>
      dsimp only
      split <;> exact .congr rfl rfl

theorem stepCommit_opens {name json : String} (b : Board) :
    Opens m false b (stepCommit now id token name json b).2 := by
  unfold stepCommit
  split <;> exact .congr rfl rfl

theorem unscheduling_signals : Unscheduling Keys.signals := fun _ _ _ _ => rfl

/-- A script that writes only schedules. -/
theorem Hands.scheduling (keeps : ∀ {α : Type} {f : Keys → α}, Unscheduling f → f q' = f q) :
    Hands m q q' := by
  refine .plain (keeps unscheduling_signals) ?_
  rw [keeps unscheduling_toBoard]
  exact .refl _ false

end Scripts

/-- Whether a script's body runs a claim. -/
def Call.claims : Call → Bool
  | .claim _ _ _ => true
  | .complete _ _ _ _ _ claimToken _ _ | .fail _ _ _ _ _ _ claimToken _ => claimToken ≠ ""
  | _ => false

/-- Whether a script pauses or resumes the queue. -/
def Call.switches : Call → Bool
  | .pause | .resume => true
  | _ => false

/-- The queue a script runs on: the marker check may write the marker first. -/
def Marked (m : GroupArgs) (q q' : Keys) : Prop := q' = q ∨ q.groupModeCheck m = some q'

theorem guarded_hands {script : Keys → Reply × Keys} (hands : ∀ q, Hands m q (script q).2) :
    ∃ q', Marked m q q' ∧ Hands m q' (guarded m script q).2 := by
  unfold guarded
  split
  next => exact ⟨q, Or.inl rfl, .refl q⟩
  next q' marker => exact ⟨q', Or.inr marker, hands q'⟩

theorem exec_hands (us : Nat) (c : Call) (idle : c.claims = false) (on : c.switches = false) :
    ∃ q', Marked m q q' ∧ Hands m q' (exec m us c q).2 := by
  cases c with
  | add jobs => exact guarded_hands fun q => addAll_hands jobs
  | claim | pause | resume => contradiction
  | complete id token keepAge keepCount lease claimToken result rate =>
      obtain rfl : claimToken = "" := by simpa [Call.claims] using idle
      exact guarded_hands fun q => complete_hands us lease _ _ _ (rateOf rate)
  | fail id token error retryIn keepFailed lease claimToken rate =>
      obtain rfl : claimToken = "" := by simpa [Call.claims] using idle
      exact guarded_hands fun q => fail_hands us _ lease _ _ (rateOf rate)
  | renew lease entries => exact ⟨q, Or.inl rfl, .plain rfl (renew_opens entries q.toBoard)⟩
  | release jobs => exact guarded_hands fun q => release_hands jobs
  | cancel => exact guarded_hands fun q => cancel_hands
  | retry => exact guarded_hands fun q => retry_hands
  | remove => exact guarded_hands fun q => .plain rfl (remove_opens q.toBoard)
  | progress => exact ⟨q, Or.inl rfl, .plain rfl (progress_opens q.toBoard)⟩
  | stepBegin => exact ⟨q, Or.inl rfl, .plain rfl (stepBegin_opens q.toBoard)⟩
  | stepCommit => exact ⟨q, Or.inl rfl, .plain rfl (stepCommit_opens q.toBoard)⟩
  | fire => exact guarded_hands fun q => fire_hands
  | defer id due untl => exact ⟨q, Or.inl rfl, .scheduling fun blind => defer_keeps blind id due untl⟩
  | upsert s => exact ⟨q, Or.inl rfl, .scheduling fun blind => upsert_keeps blind s⟩
  | unschedule id => exact ⟨q, Or.inl rfl, .scheduling fun blind => unschedule_keeps blind id⟩
  | sync list => exact ⟨q, Or.inl rfl, .scheduling fun blind => sync_keeps blind list⟩

end NxgtData.Queue
