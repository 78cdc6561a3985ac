import Mathlib.Data.List.GetD
import NxgtData.Queue.Ledger

/-!
Where the tokens of a history come from: a claim hands out its slots' tokens in
order, each at most once, so a run whose slots are all under fresh tokens hands
out no token twice.
-/
namespace NxgtData.Queue
open Decimal Gcra

/-- The jobs started so far have the first tokens, and are at most `got`. -/
def Slots (tokens : List String) (got : Nat) (jobs : List ClaimedJob) : Prop :=
  jobs.map ClaimedJob.token <+: tokens ∧ jobs.length ≤ got

section Slots
variable {m : GroupArgs} {tokens : List String} {now lease got : Nat} {st : Claiming}

theorem beginJob_slots (slots : Slots tokens got st.jobs) (room : got < tokens.length)
    (id g : String) : Slots tokens (got + 1) (beginJob m now lease tokens id g st).jobs := by
  unfold beginJob
  dsimp only
  split
  next => exact ⟨slots.1, slots.2.trans (Nat.le_succ got)⟩
  next =>
    have inside : st.jobs.length < tokens.length := slots.2.trans_lt room
    refine ⟨?_, by simpa using slots.2⟩
    have front : st.jobs.map ClaimedJob.token = tokens.take st.jobs.length := by
      simpa using List.prefix_iff_eq_take.mp slots.1
    rw [List.map_append, front, List.map_singleton, List.getD_eq_getElem _ _ inside,
      List.take_append_getElem inside]
    exact List.take_prefix _ _

theorem popTurn_slots (slots : Slots tokens got st.jobs) (room : got < tokens.length)
    {served : Option String} {st' : Claiming}
    (turn : popTurn m now lease tokens st = some (served, st')) :
    Slots tokens (if served.isSome then got + 1 else got) st'.jobs := by
  unfold popTurn at turn
  split at turn
  next => cases turn
  next g k taken =>
    dsimp only at turn
    split at turn
    next id l z popped =>
      simp only [Option.some.injEq, Prod.mk.injEq] at turn
      obtain ⟨rfl, rfl⟩ := turn
      simp only [Option.isSome_some, ite_true]
      generalize ht : ({ st with q := _ } : Claiming) = popped
      have same : popped.jobs = st.jobs := by rw [← ht]
      exact beginJob_slots (same ▸ slots) room id g
    next =>
      cases turn
      exact slots

theorem popGroups_slots {n : Nat} (le : n ≤ tokens.length) (takes : Nat)
    (slots : Slots tokens got st.jobs) :
    (popGroups m now lease tokens n takes got st).jobs.map ClaimedJob.token <+: tokens := by
  induction takes generalizing got st with
  | zero => exact slots.1
  | succ takes ih =>
      unfold popGroups
      split
      next more =>
        have room : got < tokens.length := more.trans_le le
        split
        next => exact slots.1
        next g st' turn => exact ih (popTurn_slots slots room turn)
        next st' turn => exact ih (popTurn_slots slots room turn)
      next => exact slots.1

theorem begins_slots (ids : List String) (st : Claiming)
    (room : got + ids.length ≤ tokens.length) (slots : Slots tokens got st.jobs) :
    (ids.foldl (fun st id => beginJob m now lease tokens id "" st) st).jobs.map
      ClaimedJob.token <+: tokens := by
  induction ids generalizing got st with
  | nil => exact slots.1
  | cons id ids ih =>
      rw [List.length_cons] at room
      exact ih _ (by omega) (beginJob_slots slots (by omega) id "")

theorem admitted_le (us n : Nat) (rate : Option Rate) (q : Keys) : admitted us n rate q ≤ n := by
  unfold admitted
  split
  · omega
  · split
    · omega
    · dsimp only
      split <;> omega

theorem claimReady_jobs (q : Keys) : (claimReady m now q).jobs = [] := by
  have reclaimed : ∀ (ids : List String) (st : Claiming),
      (ids.foldl (reclaimOne m now) st).jobs = st.jobs := by
    intro ids
    induction ids with
    | nil => exact fun _ => rfl
    | cons id ids ih =>
        refine fun st => (ih _).trans ?_
        unfold reclaimOne
        dsimp only
        split <;> rfl
  have promoted : ∀ (ids : List String) (st : Claiming),
      (ids.foldl (promoteOne m now) st).jobs = st.jobs := by
    intro ids
    induction ids with
    | nil => exact fun _ => rfl
    | cons id ids ih =>
        refine fun st => (ih _).trans ?_
        unfold promoteOne
        dsimp only
        split <;> rfl
  exact (promoted _ _).trans (reclaimed _ _)

theorem claim_tokens (us lease : Nat) (tokens : List String) (rate : Option Rate) (q : Keys) :
    (claim m us tokens.length lease tokens rate q).1.jobs.map ClaimedJob.token <+: tokens := by
  have start : Slots tokens 0 (claimReady m (us / 1000) q).jobs := by
    rw [claimReady_jobs]
    exact ⟨List.nil_prefix, le_rfl⟩
  have le := admitted_le us tokens.length rate (claimReady m (us / 1000) q).q
  change (claimPop m (us / 1000) us tokens.length lease tokens rate
    (claimReady m (us / 1000) q)).jobs.map ClaimedJob.token <+: tokens
  generalize claimReady m (us / 1000) q = st at start le
  unfold claimPop
  dsimp only
  split
  next => exact popGroups_slots le _ start
  next =>
    split
    next =>
      refine begins_slots _ _ ?_ start
      rw [Nat.zero_add]
      exact (SortedSet.length_popMin_le _ _).trans le
    next => exact start.1

end Slots

/-- The tokens of a call's claim slots. -/
def Call.tokens : Call → List String
  | .claim _ _ tokens => tokens
  | .complete _ _ _ _ _ claimToken _ _ | .fail _ _ _ _ _ _ claimToken _ =>
      if claimToken = "" then [] else [claimToken]
  | _ => []

/-- Every claim slot of the run is under a token of its own. -/
def FreshTokens (calls : List Timed) : Prop := (calls.flatMap fun c => c.2.tokens).Nodup

instance (calls : List Timed) : Decidable (FreshTokens calls) :=
  inferInstanceAs (Decidable (List.Nodup _))

theorem handed_claimMarks (stalled : List String) (jobs : List ClaimedJob) :
    handed (claimMarks stalled jobs) = jobs.map ClaimedJob.token := by
  have none : handed (stalled.map Mark.reclaimed) = [] := by
    simp [handed, List.filterMap_map]
  have all : handed (jobs.map fun j => Mark.claimed j.id j.token) = jobs.map ClaimedJob.token := by
    simp [handed, List.filterMap_map]
  rw [claimMarks, handed_append, none, all, List.nil_append]

section Handed
variable {m : GroupArgs}

theorem handed_settleMarks (us lease : Nat) (claimToken id token : String) (rate : Option Rate)
    (settled freed : Bool) (q : Keys) :
    (handed (settleMarks settled id token (settleClaim m us lease claimToken rate freed q).1)).Sublist
      (if claimToken = "" then [] else [claimToken]) := by
  have none : handed (if settled then [Mark.settled id token] else []) = [] := by
    cases settled <;> rfl
  rw [settleMarks, handed_append, none, List.nil_append, ClaimReply.marks, handed_claimMarks]
  unfold settleClaim
  split
  next => exact (claim_tokens us lease [claimToken] rate q).sublist
  next => exact List.nil_sublist _

theorem guarded_handed {c : Call} {ts : List String} {script : Keys → Reply × Keys}
    (error : c.marks (.error mismatch) = [])
    (replies : ∀ q, (handed (c.marks (script q).1)).Sublist ts) (q : Keys) :
    (handed (c.marks (guarded m script q).1)).Sublist ts := by
  unfold guarded
  split
  next =>
    rw [error]
    exact List.nil_sublist _
  next => exact replies _

theorem handed_addMarks (jobs : List AddJob) (replies : List AddReply) :
    handed (addMarks jobs replies) = [] := by
  induction jobs generalizing replies with
  | nil => cases replies <;> rfl
  | cons j jobs ih =>
      cases replies with
      | nil => rfl
      | cons r replies =>
          have none : handed (r.marks j) = [] := by cases r <;> rfl
          rw [addMarks, handed_append, none, ih, List.append_nil]

/-- Whether no claim can run inside the call. -/
def Call.claimless : Call → Bool
  | .claim _ _ _ | .complete _ _ _ _ _ _ _ _ | .fail _ _ _ _ _ _ _ _ => false
  | _ => true

theorem handed_marks_nil {c : Call} (claimless : c.claimless = true) (r : Reply) :
    handed (c.marks r) = [] := by
  unfold Call.marks
  split
  next => exact handed_addMarks _ _
  next => cases claimless
  next => cases claimless
  next => cases claimless
  next => simp [handed, List.filterMap_map]
  all_goals rfl

/-- A call hands out tokens of its own slots only, each once. -/
theorem handed_marks (us : Nat) (c : Call) (q : Keys) :
    (handed (c.marks (exec m us c q).1)).Sublist c.tokens := by
  cases c with
  | claim lease rate tokens =>
      refine guarded_handed rfl (fun q => ?_) q
      change (handed (claimMarks _ _)).Sublist tokens
      rw [handed_claimMarks]
      exact (claim_tokens us lease tokens _ q).sublist
  | complete =>
      refine guarded_handed rfl (fun q => ?_) q
      exact handed_settleMarks us _ _ _ _ _ _ _ _
  | fail =>
      refine guarded_handed rfl (fun q => ?_) q
      exact handed_settleMarks us _ _ _ _ _ _ _ _
  | add | renew | release | cancel | retry | remove | pause | resume | progress | stepBegin
  | stepCommit | fire | defer | upsert | unschedule | sync =>
      rw [handed_marks_nil rfl]
      exact List.nil_sublist _

theorem handed_log (calls : List Timed) (q : Keys) :
    (handed (history (logFrom m calls q))).Sublist (calls.flatMap fun c => c.2.tokens) := by
  induction calls generalizing q with
  | nil => exact List.nil_sublist _
  | cons c calls ih =>
      have first := handed_marks (m := m) c.1 c.2 q
      have parts : history (logFrom m (c :: calls) q) =
          c.2.marks (exec m c.1 c.2 q).1 ++ history (logFrom m calls (exec m c.1 c.2 q).2) := rfl
      rw [parts, handed_append, List.flatMap_cons]
      exact first.append (ih _)

theorem handed_nodup {calls : List Timed} (fresh : FreshTokens calls) :
    (handed (history (log m calls))).Nodup := fresh.sublist (handed_log calls _)

end Handed

end NxgtData.Queue
