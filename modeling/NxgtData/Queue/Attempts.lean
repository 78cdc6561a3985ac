import NxgtData.Queue.Ledger

/-!
Attempts are bounded exactly. The claim counts an attempt without looking at the
limit, so the bound is an invariant of the hashes: a job that waits has an
attempt left, and the stored attempt is what the ledger's claims and releases
come to. All that is asked of a new job is one attempt at least.
-/
namespace NxgtData.Queue
open Decimal Gcra

/-- A job that may run at least once, under a group the reader accepts. -/
def NewJob.Attemptable (j : NewJob) : Prop := j.GroupSound ∧ 1 ≤ j.attempts

/-- The attempt `k` of `n` a hash stores, as its state and the ledger have it. -/
structure Counts (past : List Mark) (id : String) (h : JobHash) (k n : Nat) : Prop where
  attempt : h.attempt = some (toString k)
  attempts : h.attempts = some (toString n)
  claimed : claims id past = releases id past + k
  limit : granted id past = n
  bound : k ≤ n
  waits : h.state = some .waiting ∨ h.state = some .delayed → k < n
  runs : h.state = some .active → 1 ≤ k

section Counts
variable {a : Act} {o : Option JobHash} {ev : List Event} {past : List Mark} {id : String}

theorem number_eq {field : Option String} {k : Nat} (h : field = some (toString k)) :
    number field = k := by
  rw [h]
  exact tonumber_toString k

theorem Counts.of_ne {h : JobHash} {k n : Nat} (counts : Counts past id h k n) (ne : id ≠ a.id) :
    Counts (past ++ marks [a]) id h k n where
  attempt := counts.attempt
  attempts := counts.attempts
  claimed := by
    rw [claims, releases, track_marks_of_ne ne, track_marks_of_ne ne]
    exact counts.claimed
  limit := by
    rw [granted, track_marks_of_ne ne]
    exact counts.limit
  bound := counts.bound
  waits := counts.waits
  runs := counts.runs

/-- Whether the act says nothing of attempts. -/
def Act.uncounted : Act → Bool
  | .create _ _ | .start _ _ | .release _ | .retry _ _ => false
  | _ => true

theorem tracks_of_uncounted (past : List Mark) (id : String) (plain : a.uncounted = true) :
    claims id (past ++ marks [a]) = claims id past ∧
      releases id (past ++ marks [a]) = releases id past ∧
      granted id (past ++ marks [a]) = granted id past := by
  cases h : a.mark with
  | none =>
      rw [marks_single_none h, List.append_nil]
      exact ⟨rfl, rfl, rfl⟩
  | some mk =>
      rw [marks_single h, claims, releases, granted, track_snoc, track_snoc, track_snoc]
      cases a <;> cases h <;> simp [Act.uncounted, Mark.restarts, claims, releases, granted] at plain ⊢

/-- An act that says nothing of attempts leaves the count to the new state. -/
theorem Counts.keep {h h' : JobHash} {k n : Nat} (counts : Counts past a.id h k n)
    (plain : a.uncounted = true) (attempt : h'.attempt = h.attempt)
    (attempts : h'.attempts = h.attempts)
    (waits : h'.state = some .waiting ∨ h'.state = some .delayed → k < n)
    (runs : h'.state = some .active → 1 ≤ k) :
    ∃ k n, Counts (past ++ marks [a]) a.id h' k n := by
  obtain ⟨claimed, released, limit⟩ := tracks_of_uncounted past a.id plain
  exact ⟨k, n, attempt.trans counts.attempt, attempts.trans counts.attempts,
    by rw [claimed, released]; exact counts.claimed, by rw [limit]; exact counts.limit,
    counts.bound, waits, runs⟩

theorem attempts_of_sound {h : JobHash} {n : Nat} (trusted : sound h = true)
    (attempts : h.attempts = some (toString n)) : 1 ≤ n := by
  simp only [sound, attempts, Bool.and_eq_true, Option.any_some, tonumber_toString,
    decide_eq_true_eq] at trusted
  exact trusted.1.1.1.2

/-- Every change keeps the count. -/
theorem Change.counts {h' : JobHash} (change : Change a o ev (some h'))
    (ok : ∀ h, o = some h → h.Ok)
    (counts : ∀ h, o = some h → ∃ k n, Counts past a.id h k n)
    (new : ∀ id h, a = .create id h → ∃ n, h.attempts = some (toString n) ∧ 1 ≤ n) :
    ∃ k n, Counts (past ++ marks [a]) a.id h' k n := by
  cases change with
  | create state token attempt step =>
      obtain ⟨n, attempts, pos⟩ := new _ _ rfl
      refine ⟨0, n, attempt, attempts, ?_, ?_, by omega, fun _ => by omega, ?_⟩
      · simp [marks, Act.mark, claims, releases, track_snoc, Mark.restarts, Act.id, Mark.id]
      · simp [marks, Act.mark, granted, track_snoc, Act.id, Mark.id, number_eq attempts]
      · intro active
        rcases state with s | s <;> rw [s] at active <;> cases active
  | @debounce _ h _ _ state =>
      obtain ⟨k, n, counts⟩ := counts h rfl
      exact counts.keep rfl rfl rfl (fun _ => counts.waits state) (by simp)
  | @promote _ h state =>
      obtain ⟨k, n, counts⟩ := counts h rfl
      exact counts.keep rfl rfl rfl (fun _ => counts.waits (Or.inr state)) (by simp)
  | @reclaim _ h _ _ left =>
      obtain ⟨k, n, counts⟩ := counts h rfl
      rw [number_eq counts.attempt, number_eq counts.attempts] at left
      exact counts.keep rfl rfl rfl (fun _ => left) (by simp)
  | @retryLater _ _ h _ _ _ _ left =>
      obtain ⟨k, n, counts⟩ := counts h rfl
      rw [number_eq counts.attempt, number_eq counts.attempts] at left
      exact counts.keep rfl rfl rfl (fun _ => left) (by simp)
  | @lapse _ h | @refuse _ h | @complete _ _ h | @failFinal _ _ h =>
      obtain ⟨k, n, counts⟩ := counts h rfl
      exact counts.keep rfl rfl rfl (by simp) (by simp)
  | @start id token h waiting trusted =>
      have own : (Mark.claimed id token).id = id := rfl
      obtain ⟨k, n, counts⟩ := counts h rfl
      refine ⟨k + 1, n, ?_, counts.attempts, ?_, ?_, ?_, by simp, fun _ => by omega⟩
      · simp only [number_eq counts.attempt]
      · have before : claims id past = releases id past + k := counts.claimed
        change claims id (past ++ [.claimed id token]) =
          releases id (past ++ [.claimed id token]) + (k + 1)
        rw [claims, releases, track_snoc, track_snoc, if_pos own, if_pos own]
        change claims id past + 1 = releases id past + (k + 1)
        omega
      · change granted id (past ++ [.claimed id token]) = n
        rw [granted, track_snoc, if_pos own]
        exact counts.limit
      · have := counts.waits (Or.inl waiting)
        omega
  | @release id token h holds _ started =>
      have own : (Mark.released id).id = id := rfl
      obtain ⟨k, n, counts⟩ := counts h rfl
      have active := (ok h rfl).2.mp (by simp [holds])
      have pos := counts.runs active
      have bound := counts.bound
      refine ⟨k - 1, n, ?_, counts.attempts, ?_, ?_, by omega, fun _ => by omega, by simp⟩
      · simp only [number_eq counts.attempt]
      · have before : claims id past = releases id past + k := counts.claimed
        change claims id (past ++ [.released id]) = releases id (past ++ [.released id]) + (k - 1)
        rw [claims, releases, track_snoc, track_snoc, if_pos own, if_pos own]
        change claims id past = releases id past + 1 + (k - 1)
        omega
      · change granted id (past ++ [.released id]) = n
        rw [granted, track_snoc, if_pos own]
        exact counts.limit
  | renew | begun =>
      obtain ⟨k, n, counts⟩ := counts h' rfl
      exact counts.keep rfl rfl rfl counts.waits counts.runs
  | drop =>
      obtain ⟨k, n, counts⟩ := counts h' rfl
      exact counts.keep rfl rfl rfl counts.waits counts.runs
  | @progress _ _ h | @commit _ _ _ _ h =>
      obtain ⟨k, n, counts⟩ := counts h rfl
      exact counts.keep rfl rfl rfl counts.waits counts.runs
  | @retry id fresh h _ _ trusted =>
      have own : (Mark.retried id fresh).id = id := rfl
      obtain ⟨k, n, counts⟩ := counts h rfl
      have pos := attempts_of_sound trusted counts.attempts
      refine ⟨0, n, rfl, counts.attempts, ?_, ?_, by omega, fun _ => by omega, by simp⟩
      · simp [marks, Act.mark, claims, releases, track_snoc, Mark.restarts, Act.id, Mark.id]
      · change granted id (past ++ [.retried id fresh]) = n
        rw [granted, track_snoc, if_pos own]
        exact counts.limit

theorem Change.uncounted_of_none (change : Change a o ev none) : a.uncounted = true := by
  cases change <;> rfl

end Counts

/-- The board under its ledger, as far as attempts go. -/
structure Counted (m : GroupArgs) (past : List Mark) (b : Board) : Prop where
  sane : Sane m b
  counts : ∀ id h, b.job id = some h → ∃ k n, Counts past id h k n
  spent : ∀ id, claims id past ≤ releases id past + granted id past

theorem Counted.move {m : GroupArgs} {past : List Mark} {b b' : Board} {a : Act}
    (counted : Counted m past b) (move : Move m b a b')
    (new : ∀ id h, a = .create id h → ∃ n, h.attempts = some (toString n) ∧ 1 ≤ n) :
    Counted m (past ++ marks [a]) b' := by
  have counts : ∀ id h, b'.job id = some h → ∃ k n, Counts (past ++ marks [a]) id h k n := by
    intro id h is
    by_cases own : id = a.id
    · subst own
      obtain ⟨ev, change, -⟩ := move.change
      rw [is] at change
      exact change.counts (fun h was => counted.sane.placed.ok was) (counted.counts a.id) new
    · rw [move.job_of_ne own] at is
      obtain ⟨k, n, counts⟩ := counted.counts id h is
      exact ⟨k, n, counts.of_ne own⟩
  refine ⟨counted.sane.move move, counts, fun id => ?_⟩
  cases is : b'.job id with
  | some h =>
      obtain ⟨k, n, counts⟩ := counts id h is
      have := counts.claimed
      have := counts.limit
      have := counts.bound
      omega
  | none =>
      by_cases own : id = a.id
      · subst own
        obtain ⟨ev, change, -⟩ := move.change
        rw [is] at change
        obtain ⟨claimed, released, limit⟩ :=
          tracks_of_uncounted past a.id change.uncounted_of_none
        rw [claimed, released, limit]
        exact counted.spent a.id
      · rw [claims, releases, granted, track_marks_of_ne own, track_marks_of_ne own,
          track_marks_of_ne own]
        exact counted.spent id

theorem run_counted {m : GroupArgs} (calls : List Timed)
    (sends : Sends NewJob.Attemptable calls) :
    Counted m (history (log m calls)) (run m calls).toBoard := by
  have leads := run_leads (m := m) calls sends fun _ attemptable => attemptable.1
  refine leads.history [] (R := Counted m) (fun counted move new => ?_)
    ⟨.empty m, by simp, fun _ => le_rfl⟩
  refine counted.move move fun id h eq => ?_
  obtain ⟨j, now, attemptable, -, rfl⟩ := new id h eq
  exact ⟨j.attempts, rfl, attemptable.2⟩

/-- A job that waits has an attempt left, an active one is within its attempts,
and since a job was last created or retried the claims that handed it out, less
the releases that gave it back, are its stored attempt. That they never pass the
attempts it was created with holds of a job that is gone as well. -/
theorem run_attempts (m : GroupArgs) (calls : List Timed)
    (sends : Sends NewJob.Attemptable calls) (id : String) :
    let q := run m calls
    let past := history (log m calls)
    (∀ h, q.job id = some h → ∃ k n,
      h.attempt = some (toString k) ∧ h.attempts = some (toString n) ∧
      (id ∈ q.ready ∨ id ∈ q.delayed → k < n) ∧
      (id ∈ q.active → 1 ≤ k ∧ k ≤ n) ∧
      claims id past = releases id past + k ∧ k ≤ n ∧ n = granted id past) ∧
    claims id past ≤ releases id past + granted id past := by
  have counted := run_counted (m := m) calls sends
  intro q past
  refine ⟨fun h was => ?_, counted.spent id⟩
  obtain ⟨k, n, counts⟩ := counted.counts id h was
  have state : ∀ s, id ∈ q.place s → h.state = some s := fun s mem =>
    (Board.stateOf_of_job was).symm.trans ((counted.sane.placed.mem_place id s).mp mem)
  refine ⟨k, n, counts.attempt, counts.attempts, fun mem => counts.waits ?_,
    fun mem => ⟨counts.runs (state .active mem), counts.bound⟩, counts.claimed, counts.bound,
    counts.limit.symm⟩
  exact mem.imp (state .waiting) (state .delayed)

theorem run_attempts_addAndClaim :
    claims "a" (history (log ⟨true, 2⟩ addAndClaim)) ≤
      releases "a" (history (log ⟨true, 2⟩ addAndClaim)) +
        granted "a" (history (log ⟨true, 2⟩ addAndClaim)) := by
  refine (run_attempts ⟨true, 2⟩ addAndClaim ?_ "a").2
  intro c mem
  simp only [addAndClaim, List.mem_cons, List.not_mem_nil, or_false] at mem
  rcases mem with rfl | rfl
  · intro j mem
    rw [List.mem_singleton.mp mem]
    exact ⟨by change groupSound (some "g") = true; decide, le_rfl⟩
  · trivial

end NxgtData.Queue
