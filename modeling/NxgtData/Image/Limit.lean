import Mathlib.Data.List.Induction
import Mathlib.Data.List.Perm.Basic

/-!
`createLimit`, a semaphore of `max` places. A submission that finds none free sleeps; a place
that a task gives back passes to the one that slept longest, which goes on in a promise job of
its own: such jobs run in the order they were made, and other code may run before them.
-/
namespace NxgtData.ImageSet

variable {ε α : Type}

/-- `concurrency`, as `resolveOptions` lets it through. -/
abbrev Max := { n : Nat // 1 ≤ n }

/-- One limit. Submissions are numbered from 0, in the order they are made. -/
structure Limit (ε α : Type) where
  max : Max
  running : Int
  waiting : List Nat
  /-- The submissions that were handed a place, and are yet to go on. -/
  resumed : List Nat
  /-- The tasks called so far, in the order of the calls. -/
  started : List Nat
  /-- The tasks called whose place is not given back. -/
  active : List Nat
  submitted : Nat
  /-- What the ended submissions settled with, in the order they ended. -/
  answers : List (Nat × Except ε α)

/-- What the code of a limit does without a stop. A task that throws before its first `await`
finishes right after it starts; what a task submits itself are submissions like any other. -/
inductive Act (ε α : Type) where
  /-- `limit(task)` is called. -/
  | submit
  /-- The first submission that was handed a place goes on. -/
  | resume
  /-- The task of a submission has returned or thrown, and the `finally` runs. -/
  | finish (t : Nat) (result : Except ε α)

namespace Limit

def createLimit (max : Max) : Limit ε α where
  max
  running := 0
  waiting := []
  resumed := []
  started := []
  active := []
  submitted := 0
  answers := []

def release (l : Limit ε α) : Limit ε α :=
  match l.waiting with
  | next :: waiting => { l with waiting, resumed := l.resumed ++ [next] }
  | [] => { l with running := l.running - 1 }

/-- `task()`. -/
def start (t : Nat) (l : Limit ε α) : Limit ε α :=
  { l with started := l.started ++ [t], active := l.active ++ [t] }

def submit (l : Limit ε α) : Limit ε α :=
  let t := l.submitted
  let l := { l with submitted := t + 1 }
  if l.running < l.max then start t { l with running := l.running + 1 }
  else { l with waiting := l.waiting ++ [t] }

def resume (l : Limit ε α) : Limit ε α :=
  match l.resumed with
  | t :: resumed => start t { l with resumed }
  | [] => l

def finish (t : Nat) (result : Except ε α) (l : Limit ε α) : Limit ε α :=
  if t ∈ l.active then
    release { l with active := l.active.erase t, answers := l.answers ++ [(t, result)] }
  else l

def step (l : Limit ε α) : Act ε α → Limit ε α
  | .submit => l.submit
  | .resume => l.resume
  | .finish t result => l.finish t result

def run (l : Limit ε α) (acts : List (Act ε α)) : Limit ε α := acts.foldl step l

/-- The submissions that hold a place. -/
def held (l : Limit ε α) : List Nat := l.resumed ++ l.active

/-- The submissions whose place is given back. -/
def ended (l : Limit ε α) : List Nat := l.answers.map Prod.fst

structure Sound (l : Limit ε α) : Prop where
  /-- A place is counted as long as it is held. -/
  exact : l.running = l.held.length
  bounded : l.held.length ≤ l.max
  /-- Nothing waits while a place is free. -/
  prompt : l.waiting ≠ [] → l.held.length = l.max
  /-- A submission waits, holds one place, or has given it back once. -/
  once : (l.ended ++ l.held ++ l.waiting).Perm (List.range l.submitted)
  called : l.started.Perm (l.ended ++ l.active)

/-- The tasks that were called are those submitted first, in this order. -/
def InOrder (l : Limit ε α) : Prop := l.started = List.range l.started.length

/-- No submission takes a free place before one that was handed its place goes on. -/
def Behind (l : Limit ε α) : Act ε α → Prop
  | .submit => l.running < l.max → l.resumed = []
  | _ => True

/-! Each act. -/

section Step
variable {l : Limit ε α}

theorem Sound.free (h : l.Sound) (less : l.running < l.max) :
    l.held.length < l.max ∧ l.waiting = [] := by
  have fewer : l.held.length < l.max := by
    have exact := h.exact
    omega
  refine ⟨fewer, ?_⟩
  by_contra waits
  exact absurd (h.prompt waits) (by omega)

theorem Sound.full (h : l.Sound) (most : ¬ l.running < l.max) : l.held.length = l.max := by
  have exact := h.exact
  have bounded := h.bounded
  omega

theorem sound_create (max : Max) : (createLimit max : Limit ε α).Sound where
  exact := rfl
  bounded := Nat.zero_le _
  prompt waits := absurd rfl waits
  once := List.Perm.refl _
  called := List.Perm.refl _

theorem Sound.submit (h : l.Sound) : l.submit.Sound := by
  unfold Limit.submit
  dsimp only
  split
  next less =>
    obtain ⟨fewer, none⟩ := h.free less
    have exact := h.exact
    have once := h.once
    unfold held at fewer exact once
    rw [none, List.append_nil] at once
    refine ⟨?_, ?_, ?_, ?_, ?_⟩
    · simp only [start, held, List.length_append, List.length_singleton] at exact ⊢
      omega
    · simp only [start, held, List.length_append, List.length_singleton] at fewer ⊢
      omega
    · intro waits
      exact absurd none waits
    · simp only [start, held, ended, none, List.append_nil, List.range_succ] at once ⊢
      simpa only [List.append_assoc] using once.append_right [l.submitted]
    · have called := h.called.append_right [l.submitted]
      rwa [List.append_assoc] at called
  next most =>
    refine ⟨h.exact, h.bounded, fun _ => h.full most, ?_, h.called⟩
    have once := h.once.append_right [l.submitted]
    rw [List.append_assoc, ← List.range_succ] at once
    exact once

theorem Sound.resume (h : l.Sound) : l.resume.Sound := by
  unfold Limit.resume
  split
  next t rest woken =>
    have same : (start t { l with resumed := rest }).held.Perm l.held := by
      have moves : (rest ++ (l.active ++ [t])).Perm (t :: (rest ++ l.active)) := by
        rw [← List.append_assoc]
        exact List.perm_append_singleton t (rest ++ l.active)
      rw [held, held, woken]
      exact moves
    refine ⟨?_, ?_, ?_, ?_, ?_⟩
    · rw [same.length_eq]
      exact h.exact
    · rw [same.length_eq]
      exact h.bounded
    · rw [same.length_eq]
      exact h.prompt
    · exact ((same.append_left _).append_right _).trans h.once
    · have called := h.called.append_right [t]
      rwa [List.append_assoc] at called
  next => exact h

theorem Sound.finish (h : l.Sound) (t : Nat) (result : Except ε α) :
    (l.finish t result).Sound := by
  unfold Limit.finish
  split
  next runs =>
    have exact := h.exact
    have bounded := h.bounded
    have fewer : (l.active.erase t).length + 1 = l.active.length := by
      have pos := List.length_pos_of_mem runs
      rw [List.length_erase_of_mem runs]
      omega
    have moves : (l.ended ++ t :: l.active.erase t).Perm (l.ended ++ l.active) :=
      (List.perm_cons_erase runs).symm.append_left _
    have called := h.called.trans moves.symm
    have once := h.once
    unfold held at exact bounded once
    rw [List.length_append] at exact bounded
    have given : ((l.ended ++ [t]) ++ (l.resumed ++ l.active.erase t) ++ l.waiting).Perm
        (List.range l.submitted) := by
      refine (List.Perm.append_right _ ?_).trans once
      rw [List.append_assoc, List.singleton_append]
      refine List.Perm.append_left _ ?_
      exact List.perm_middle.symm.trans
        ((List.perm_cons_erase runs).symm.append_left l.resumed)
    unfold release
    dsimp only
    split
    next next rest waits =>
      have full := h.prompt (by simp [waits])
      rw [held, List.length_append] at full
      refine ⟨?_, ?_, ?_, ?_, ?_⟩
      · simp only [held, List.length_append, List.length_singleton]
        omega
      · simp only [held, List.length_append, List.length_singleton]
        omega
      · intro
        simp only [held, List.length_append, List.length_singleton]
        omega
      · have passes : (l.resumed ++ [next] ++ l.active.erase t ++ rest).Perm
            (l.resumed ++ l.active.erase t ++ next :: rest) := by
          simp only [List.append_assoc, List.singleton_append]
          exact List.perm_middle.symm.append_left l.resumed
        rw [waits, List.append_assoc] at given
        simp only [ended, held, List.map_append, List.map_cons, List.map_nil]
        rw [List.append_assoc]
        exact (passes.append_left _).trans given
      · simpa [ended, List.append_assoc] using called
    next waits =>
      refine ⟨?_, ?_, ?_, ?_, ?_⟩
      · simp only [held, List.length_append]
        omega
      · simp only [held, List.length_append]
        omega
      · intro some
        exact absurd waits some
      · simpa only [ended, held, List.map_append, List.map_cons, List.map_nil] using given
      · simpa [ended, List.append_assoc] using called
  next => exact h

theorem Sound.step (h : l.Sound) (act : Act ε α) : (l.step act).Sound := by
  cases act with
  | submit => exact h.submit
  | resume => exact h.resume
  | finish t result => exact h.finish t result

end Step

/-! The order of the starts. -/

section Order
variable {l : Limit ε α}

/-- Submissions start, go on and wait in the order they were made. -/
def Queued (l : Limit ε α) : Prop := l.started ++ l.resumed ++ l.waiting = List.range l.submitted

theorem Queued.inOrder (h : l.Queued) : l.InOrder := by
  have first : l.started = (List.range l.submitted).take l.started.length := by
    rw [← h, List.append_assoc, List.take_left]
  have few : l.started.length ≤ l.submitted := by
    have size := congrArg List.length first
    rw [List.length_take, List.length_range] at size
    omega
  rw [List.take_range, Nat.min_eq_left few] at first
  exact first

theorem Queued.step (h : l.Queued) (sound : l.Sound) {act : Act ε α} (behind : l.Behind act) :
    (l.step act).Queued := by
  unfold Queued at h
  cases act with
  | submit =>
      change Queued l.submit
      unfold Limit.submit
      dsimp only
      split
      next less =>
        have none := (sound.free less).2
        have went : l.resumed = [] := behind less
        rw [none, went, List.append_nil, List.append_nil] at h
        simp only [Queued, start, none, went, List.append_nil, List.range_succ, h]
      next most =>
        simp only [Queued, List.range_succ]
        rw [← List.append_assoc, h]
  | resume =>
      change Queued l.resume
      unfold Limit.resume
      split
      next t rest woken =>
        rw [woken] at h
        simp only [Queued, start]
        rw [← h, List.append_assoc l.started, List.singleton_append]
      next => exact h
  | finish t result =>
      change Queued (l.finish t result)
      unfold Limit.finish
      split
      next =>
        unfold release
        dsimp only
        split
        next next rest waits =>
          rw [waits] at h
          simp only [Queued]
          rw [← h]
          simp only [List.append_assoc, List.singleton_append]
        next => exact h
      next => exact h

/-- What starts at once starts before what was handed a place and is yet to go on. -/
theorem Sound.behind (h : l.Sound) {act : Act ε α} (next : (l.step act).InOrder) :
    l.Behind act := by
  cases act with
  | submit =>
      intro less
      have starts : (l.step .submit).started = l.started ++ [l.submitted] := by
        change l.submit.started = _
        unfold Limit.submit
        dsimp only
        rw [if_pos less]
        rfl
      unfold InOrder at next
      rw [starts, List.length_append, List.length_singleton, List.range_succ] at next
      have last : l.submitted = l.started.length := by
        have same := (List.append_inj' next rfl).2
        simpa using same
      have once := h.once.length_eq
      have called := h.called.length_eq
      rw [List.length_range] at once
      simp only [held, List.length_append] at once called
      exact List.eq_nil_of_length_eq_zero (by omega)
  | resume => trivial
  | finish t result => trivial

end Order

/-! Runs. -/

theorem run_snoc (l : Limit ε α) (acts : List (Act ε α)) (act : Act ε α) :
    l.run (acts ++ [act]) = (l.run acts).step act := by
  rw [run, List.foldl_append]
  rfl

theorem run_sound (max : Max) (acts : List (Act ε α)) : ((createLimit max).run acts).Sound := by
  induction acts using List.reverseRecOn with
  | nil => exact sound_create max
  | append_singleton acts act ih =>
      rw [run_snoc]
      exact ih.step act

theorem run_queued (max : Max) (acts : List (Act ε α))
    (h : ∀ done act, done ++ [act] <+: acts → ((createLimit max).run done).Behind act) :
    ((createLimit max).run acts).Queued := by
  induction acts using List.reverseRecOn with
  | nil => rfl
  | append_singleton acts act ih =>
      rw [run_snoc]
      have before := ih fun done next early => h done next (early.trans (List.prefix_append _ _))
      exact before.step (run_sound max acts) (h acts act (List.prefix_refl _))

/-- However submissions, completions and failures follow each other, no more than `max` places
are held, each is counted while it is held and given back once, and nothing waits for one that
is free. Tasks start in the order of the submissions exactly as long as no submission takes a
free place before one that was handed its place has gone on. -/
theorem run_limit (max : Max) (acts : List (Act ε α)) :
    ((createLimit max).run acts).Sound ∧
      ((∀ done, done <+: acts → ((createLimit max).run done).InOrder) ↔
        ∀ done act, done ++ [act] <+: acts → ((createLimit max).run done).Behind act) := by
  refine ⟨run_sound max acts, fun ordered done act early => ?_, fun behind done early => ?_⟩
  · have next := ordered (done ++ [act]) early
    rw [run_snoc] at next
    exact (run_sound max done).behind next
  · have queued := run_queued max done fun done' act early' => behind done' act (early'.trans early)
    exact queued.inOrder

/-- Two of three submissions hold the places; when both end in a row and a fourth is made before
the third goes on, the fourth starts first. -/
theorem run_overtakes :
    let l := (createLimit ⟨2, by decide⟩ : Limit Unit Unit).run
      [.submit, .submit, .submit, .finish 0 (.ok ()), .finish 1 (.ok ()), .submit, .resume]
    l.started = [0, 1, 3, 2] ∧ ¬ l.InOrder := by
  refine ⟨rfl, ?_⟩
  unfold InOrder
  decide

end Limit
end NxgtData.ImageSet
