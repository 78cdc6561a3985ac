import Mathlib.Data.List.Induction
import Mathlib.Logic.Function.Iterate
import Mathlib.Data.List.Sort

/-!
One iterator of a keyed stream: its unread messages, the reads that sleep, and those that a
message woke and that are yet to run. `log` says what it heard and when a read took a message.
-/
namespace NxgtData.Redis.Streams

variable {μ : Type}

/-- `bufferSize`, as `checkBufferSize` lets it through. -/
abbrev BufferSize := { n : Nat // 1 ≤ n }

inductive Entry (μ : Type) where
  | heard (m : μ)
  | read
  deriving DecidableEq

structure Reader (μ : Type) where
  key : String
  limit : BufferSize
  queue : List μ
  waiters : List Nat
  /-- The reads of each wake, whose promises are fulfilled. -/
  woken : List (List Nat)
  stopped : Bool
  started : Bool
  /-- The calls of `next` so far, which are numbered from 0. -/
  calls : Nat
  /-- The calls that are settled: with a message, or as finished. -/
  answers : List (Nat × Option μ)
  log : List (Entry μ)

namespace Reader

def made (key : String) (limit : BufferSize) (stopped : Bool) : Reader μ where
  key
  limit
  queue := []
  waiters := []
  woken := []
  stopped
  started := false
  calls := 0
  answers := []
  log := []

def wake (r : Reader μ) : Reader μ :=
  if r.waiters.isEmpty then r else { r with waiters := [], woken := r.woken ++ [r.waiters] }

def push (m : μ) (r : Reader μ) : Reader μ :=
  wake { r with
    queue := (if r.queue.length ≥ r.limit then r.queue.tail else r.queue) ++ [m]
    log := r.log ++ [.heard m] }

def halt (r : Reader μ) : Reader μ := { r with stopped := true }

def stop (r : Reader μ) : Reader μ := wake r.halt

/-- A read goes on: it takes a message or sleeps. -/
def attend (c : Nat) (r : Reader μ) : Reader μ :=
  if r.stopped then { r with answers := r.answers ++ [(c, none)] }
  else
    match r.queue with
    | m :: queue =>
        { r with queue, answers := r.answers ++ [(c, some m)], log := r.log ++ [.read] }
    | [] => { r with waiters := r.waiters ++ [c] }

/-- A read is called. -/
def call (r : Reader μ) : Reader μ := attend r.calls { r with calls := r.calls + 1 }

/-- The reads of the first wake go on, in promise jobs that follow each other. -/
def resume (r : Reader μ) : Reader μ :=
  match r.woken with
  | batch :: woken => batch.foldl (fun r c => attend c r) { r with woken }
  | [] => r

/-- The messages that reads have taken, and those that are unread, by what was heard and read. -/
def readout (limit : Nat) : List (Entry μ) → List μ × List μ
  | log => log.foldl
    (fun (taken, unread) entry =>
      match entry with
      | .heard m => (taken, (if unread.length ≥ limit then unread.tail else unread) ++ [m])
      | .read => (taken ++ unread.take 1, unread.tail))
    ([], [])

/-- What was heard. -/
def heardOf : List (Entry μ) → List μ
  | [] => []
  | .heard m :: log => m :: heardOf log
  | .read :: log => heardOf log

/-- The messages of the calls, in the order of the calls. -/
def values (r : Reader μ) : List μ :=
  (List.range r.calls).filterMap fun c => (r.answers.lookup c).join

theorem readout_snoc (limit : Nat) (log : List (Entry μ)) (entry : Entry μ) :
    readout limit (log ++ [entry]) = match entry with
      | .heard m => ((readout limit log).1,
          (if (readout limit log).2.length ≥ limit then (readout limit log).2.tail
            else (readout limit log).2) ++ [m])
      | .read => ((readout limit log).1 ++ (readout limit log).2.take 1,
          (readout limit log).2.tail) := by
  rw [readout, List.foldl_append]
  cases entry with
  | heard m => rfl
  | read => rfl

theorem heardOf_append (log log' : List (Entry μ)) :
    heardOf (log ++ log') = heardOf log ++ heardOf log' := by
  induction log with
  | nil => rfl
  | cons entry log ih =>
      cases entry with
      | heard m => exact congrArg (m :: ·) ih
      | read => exact ih

/-- What is taken or unread was heard, in this order and once for each time that it was. -/
theorem readout_sublist (limit : Nat) (log : List (Entry μ)) :
    ((readout limit log).1 ++ (readout limit log).2).Sublist (heardOf log) := by
  induction log using List.reverseRecOn with
  | nil => exact List.Sublist.refl _
  | append_singleton log entry ih =>
      rw [readout_snoc, heardOf_append]
      cases entry with
      | heard m =>
          dsimp only
          rw [← List.append_assoc]
          refine List.Sublist.append (List.Sublist.trans ?_ ih) (List.Sublist.refl _)
          split
          · exact List.Sublist.append (List.Sublist.refl _) (List.tail_sublist _)
          · exact List.Sublist.refl _
      | read =>
          dsimp only
          rw [List.append_assoc, ← List.drop_one, List.take_append_drop]
          simpa [heardOf] using ih

/-- At most as many messages as the buffer holds are unread. -/
theorem readout_unread {limit : Nat} (pos : 1 ≤ limit) (log : List (Entry μ)) :
    (readout limit log).2.length ≤ limit := by
  induction log using List.reverseRecOn with
  | nil => exact Nat.zero_le _
  | append_singleton log entry ih =>
      rw [readout_snoc]
      cases entry with
      | heard m =>
          dsimp only
          rw [List.length_append, List.length_singleton]
          split
          · rw [List.length_tail]
            omega
          · omega
      | read =>
          dsimp only
          rw [List.length_tail]
          omega

/-! What holds of an iterator however its acts follow each other. -/

/-- The reads `pending` of a wake are yet to go on. -/
structure Fits (r : Reader μ) (pending : List Nat) : Prop where
  /-- Nobody sleeps beside a message. -/
  idle : r.waiters ≠ [] → r.queue = []
  awake : r.stopped = true → r.waiters = []
  taken : readout r.limit r.log = (r.answers.filterMap Prod.snd, r.queue)
  /-- A call is settled once, was woken or sleeps. -/
  once : (r.answers.map Prod.fst ++ pending ++ r.woken.flatten ++ r.waiters).Perm
    (List.range r.calls)

def Sound (r : Reader μ) : Prop := r.Fits []

/-- What is left of the order of the calls while the reads `pending` are yet to go on. -/
def InTurn (r : Reader μ) (pending : List Nat) : Prop :=
  r.woken = [] ∧ r.answers.map Prod.fst ++ r.waiters ++ pending = List.range r.calls

/-- Calls are settled, woken and asleep in the order in which they were made. -/
def Lined (r : Reader μ) : Prop :=
  r.InTurn [] ∨ ∃ batch, r.woken = [batch] ∧ r.waiters = [] ∧
    r.answers.map Prod.fst ++ batch = List.range r.calls

/-- The calls that are settled with a message, in the order of the messages. -/
def served (r : Reader μ) : List Nat := (r.answers.filter (·.2.isSome)).map Prod.fst

/-- Messages go to the calls in their order; once the iterator has stopped none goes to any. -/
def Ordered (r : Reader μ) : Prop :=
  r.Lined ∨ r.stopped = true ∧ r.served.Pairwise (· < ·)

section Acts
variable {r : Reader μ}

theorem sound_made (key : String) (limit : BufferSize) (stopped : Bool) :
    (made key limit stopped : Reader μ).Sound where
  idle waits := absurd rfl waits
  awake _ := rfl
  taken := rfl
  once := List.Perm.refl _

theorem ordered_made (key : String) (limit : BufferSize) (stopped : Bool) :
    (made key limit stopped : Reader μ).Ordered := .inl (.inl ⟨rfl, rfl⟩)

theorem wake_waiters (r : Reader μ) : r.wake.waiters = [] := by
  unfold wake
  split
  next none => exact List.isEmpty_iff.mp none
  next => rfl

theorem wake_flatten (r : Reader μ) :
    r.wake.woken.flatten ++ r.wake.waiters = r.woken.flatten ++ r.waiters := by
  unfold wake
  split
  next => rfl
  next => simp

theorem Sound.wake (taken : readout r.limit r.log = (r.answers.filterMap Prod.snd, r.queue))
    (once : (r.answers.map Prod.fst ++ (r.woken.flatten ++ r.waiters)).Perm
      (List.range r.calls)) : r.wake.Sound := by
  have kept : r.wake.answers = r.answers ∧ r.wake.queue = r.queue ∧ r.wake.limit = r.limit ∧
      r.wake.log = r.log ∧ r.wake.calls = r.calls := by
    unfold Reader.wake
    split <;> exact ⟨rfl, rfl, rfl, rfl, rfl⟩
  obtain ⟨answers, queue, limit, log, calls⟩ := kept
  refine ⟨fun waits => absurd (wake_waiters r) waits, fun _ => wake_waiters r, ?_, ?_⟩
  · rw [limit, log, answers, queue]
    exact taken
  · rw [answers, calls, List.append_nil, List.append_assoc, wake_flatten]
    exact once

theorem Sound.push (h : r.Sound) (m : μ) : (r.push m).Sound := by
  have once := h.once
  rw [List.append_nil, List.append_assoc] at once
  refine Sound.wake ?_ once
  rw [readout_snoc, h.taken]

theorem Sound.stop (h : r.Sound) : r.stop.Sound := by
  have once := h.once
  rw [List.append_nil, List.append_assoc] at once
  exact Sound.wake h.taken once

theorem Fits.attend {c : Nat} {pending : List Nat} (h : r.Fits (c :: pending)) :
    (r.attend c).Fits pending := by
  have once := h.once
  unfold Reader.attend
  split
  next stopped =>
    refine ⟨h.idle, h.awake, ?_, ?_⟩
    · rw [h.taken, List.filterMap_append]
      simp
    · simpa [List.append_assoc] using once
  next running =>
    split
    next m queue full =>
      have none : r.waiters = [] := by
        by_contra waits
        rw [h.idle waits] at full
        cases full
      refine ⟨fun waits => absurd none waits, h.awake, ?_, ?_⟩
      · rw [readout_snoc, h.taken, full, List.filterMap_append]
        rfl
      · simpa [List.append_assoc] using once
    next empty =>
      refine ⟨fun _ => empty, fun stopped => absurd stopped running, h.taken, ?_⟩
      refine List.Perm.trans ?_ once
      simp only [List.append_assoc, List.cons_append]
      refine List.Perm.append_left _ ?_
      have last : (pending ++ (r.woken.flatten ++ (r.waiters ++ [c]))).Perm
          (c :: (pending ++ (r.woken.flatten ++ r.waiters))) := by
        rw [← List.append_assoc r.woken.flatten, ← List.append_assoc pending]
        exact List.perm_append_singleton c _
      exact last

theorem Fits.batch {batch : List Nat} (h : r.Fits batch) :
    (batch.foldl (fun r c => r.attend c) r).Sound := by
  induction batch generalizing r with
  | nil => exact h
  | cons c batch ih => exact ih h.attend

theorem Sound.resume (h : r.Sound) : r.resume.Sound := by
  unfold Reader.resume
  split
  next batch woken is =>
    refine Fits.batch ⟨h.idle, h.awake, h.taken, ?_⟩
    have once := h.once
    rw [is, List.append_nil, List.flatten_cons, ← List.append_assoc] at once
    exact once
  next => exact h

theorem Sound.call (h : r.Sound) : r.call.Sound := by
  refine Fits.attend ⟨h.idle, h.awake, h.taken, ?_⟩
  have once := h.once.append_right [r.calls]
  rw [← List.range_succ, List.append_nil] at once
  refine List.Perm.trans ?_ once
  simp only [List.append_assoc, List.singleton_append]
  refine List.Perm.append_left _ ?_
  rw [← List.append_assoc]
  exact (List.perm_append_singleton _ _).symm

/-! The order of the calls. -/

theorem InTurn.attend {c : Nat} {pending : List Nat} (h : r.InTurn (c :: pending))
    (idle : r.waiters ≠ [] → r.queue = []) (awake : r.stopped = true → r.waiters = []) :
    (r.attend c).InTurn pending := by
  obtain ⟨none, order⟩ := h
  unfold Reader.attend
  split
  next stopped =>
    refine ⟨none, ?_⟩
    rw [awake stopped] at order ⊢
    simpa using order
  next =>
    split
    next m queue full =>
      have alone : r.waiters = [] := by
        by_contra waits
        rw [idle waits] at full
        cases full
      refine ⟨none, ?_⟩
      rw [alone] at order ⊢
      simpa using order
    next => exact ⟨none, by simpa using order⟩

theorem InTurn.batch {batch : List Nat} (h : r.InTurn batch) (fits : r.Fits batch) :
    (batch.foldl (fun r c => r.attend c) r).InTurn [] := by
  induction batch generalizing r with
  | nil => exact h
  | cons c batch ih => exact ih (h.attend fits.idle fits.awake) fits.attend

theorem Lined.wake (h : r.Lined) : r.wake.Lined := by
  unfold Reader.wake
  split
  next => exact h
  next some =>
    rcases h with ⟨none, order⟩ | ⟨batch, is, alone, order⟩
    · refine .inr ⟨r.waiters, ?_, rfl, ?_⟩
      · simp [none]
      · simpa using order
    · simp [alone] at some

theorem Lined.resume (h : r.Lined) (sound : r.Sound) : r.resume.Lined := by
  unfold Reader.resume
  split
  next batch woken is =>
    rcases h with ⟨none, -⟩ | ⟨only, one, alone, order⟩
    · rw [none] at is
      cases is
    · rw [one] at is
      cases is
      have once := sound.once
      rw [one, List.append_nil, List.flatten_singleton] at once
      refine .inl (InTurn.batch ⟨rfl, ?_⟩ ⟨sound.idle, sound.awake, sound.taken, ?_⟩)
      · simpa [alone] using order
      · simpa using once
  next => exact h

theorem Lined.call (h : r.Lined) (sound : r.Sound) (ran : r.woken = []) : r.call.Lined := by
  rcases h with ⟨-, order⟩ | ⟨batch, one, -, -⟩
  · refine .inl (InTurn.attend ⟨ran, ?_⟩ sound.idle sound.awake)
    rw [List.append_nil] at order
    simp only [List.range_succ, order]
  · rw [ran] at one
    cases one

/-- The calls of a line that are settled are the first ones. -/
theorem Lined.first (h : r.Lined) :
    ∃ later, r.answers.map Prod.fst ++ later = List.range r.calls := by
  rcases h with ⟨-, order⟩ | ⟨batch, -, -, order⟩
  · exact ⟨r.waiters, by simpa using order⟩
  · exact ⟨batch, order⟩

theorem Lined.served (h : r.Lined) : r.served.Pairwise (· < ·) := by
  obtain ⟨later, order⟩ := h.first
  have sorted : (r.answers.map Prod.fst ++ later).Pairwise (· < ·) := by
    rw [order]
    exact List.pairwise_lt_range
  exact (List.pairwise_append.mp sorted).1.sublist (List.filter_sublist.map Prod.fst)

theorem Ordered.served (h : r.Ordered) : r.served.Pairwise (· < ·) := by
  rcases h with lined | ⟨-, order⟩
  · exact lined.served
  · exact order

/-! What it heard, and what else an act leaves as it is. -/

theorem wake_rest (r : Reader μ) : r.wake.key = r.key ∧ r.wake.limit = r.limit ∧
    r.wake.stopped = r.stopped ∧ r.wake.started = r.started ∧ r.wake.log = r.log := by
  unfold wake
  split <;> exact ⟨rfl, rfl, rfl, rfl, rfl⟩

theorem heard_push (r : Reader μ) (m : μ) : heardOf (r.push m).log = heardOf r.log ++ [m] := by
  rw [push, (wake_rest _).2.2.2.2, heardOf_append]
  rfl

theorem push_rest (r : Reader μ) (m : μ) : (r.push m).key = r.key ∧
    (r.push m).stopped = r.stopped ∧ (r.push m).started = r.started := by
  obtain ⟨key, -, stopped, started, -⟩ := wake_rest { r with
    queue := (if r.queue.length ≥ r.limit then r.queue.tail else r.queue) ++ [m]
    log := r.log ++ [.heard m] }
  exact ⟨key, stopped, started⟩

theorem stop_rest (r : Reader μ) : r.stop.key = r.key ∧ r.stop.stopped = true ∧
    r.stop.started = r.started ∧ r.stop.log = r.log := by
  obtain ⟨key, -, stopped, started, log⟩ := wake_rest { r with stopped := true }
  exact ⟨key, stopped, started, log⟩

/-- What a read leaves as it is. -/
structure Alike (r r' : Reader μ) : Prop where
  key : r'.key = r.key
  limit : r'.limit = r.limit
  stopped : r'.stopped = r.stopped
  started : r'.started = r.started
  calls : r'.calls = r.calls
  heard : heardOf r'.log = heardOf r.log

theorem Alike.trans {r' r'' : Reader μ} (h : r.Alike r') (h' : r'.Alike r'') : r.Alike r'' where
  key := h'.key.trans h.key
  limit := h'.limit.trans h.limit
  stopped := h'.stopped.trans h.stopped
  started := h'.started.trans h.started
  calls := h'.calls.trans h.calls
  heard := h'.heard.trans h.heard

theorem attend_alike (r : Reader μ) (c : Nat) : r.Alike (r.attend c) := by
  unfold attend
  split
  · exact ⟨rfl, rfl, rfl, rfl, rfl, rfl⟩
  split
  · refine ⟨rfl, rfl, rfl, rfl, rfl, ?_⟩
    rw [heardOf_append, heardOf, heardOf, List.append_nil]
  · exact ⟨rfl, rfl, rfl, rfl, rfl, rfl⟩

theorem batch_alike (r : Reader μ) (batch : List Nat) :
    r.Alike (batch.foldl (fun r c => r.attend c) r) := by
  induction batch generalizing r with
  | nil => exact ⟨rfl, rfl, rfl, rfl, rfl, rfl⟩
  | cons c batch ih => exact (attend_alike r c).trans (ih (r.attend c))

theorem resume_alike (r : Reader μ) : r.Alike r.resume := by
  unfold resume
  split
  next batch woken is =>
      obtain ⟨key, limit, stopped, started, calls, heard⟩ := batch_alike { r with woken } batch
      exact ⟨key, limit, stopped, started, calls, heard⟩
  next => exact ⟨rfl, rfl, rfl, rfl, rfl, rfl⟩

theorem call_alike (r : Reader μ) : Alike { r with calls := r.calls + 1 } r.call :=
  attend_alike { r with calls := r.calls + 1 } _

/-! The settled calls. -/

theorem attend_stopped (stopped : r.stopped = true) (c : Nat) :
    r.attend c = { r with answers := r.answers ++ [(c, none)] } := if_pos stopped

theorem batch_stopped (stopped : r.stopped = true) (batch : List Nat) :
    batch.foldl (fun r c => r.attend c) r =
      { r with answers := r.answers ++ batch.map fun c => (c, none) } := by
  induction batch generalizing r with
  | nil => simp
  | cons c batch ih =>
      rw [List.foldl_cons, attend_stopped stopped, ih (by exact stopped), List.map_cons,
        List.append_assoc, List.singleton_append]

theorem resume_stopped (stopped : r.stopped = true) :
    r.resume.woken = r.woken.tail ∧ r.resume.stopped = true := by
  refine ⟨?_, (resume_alike r).stopped.trans stopped⟩
  unfold resume
  split
  next batch woken is => rw [batch_stopped (by exact stopped), is, List.tail_cons]
  next none => rw [none, List.tail_nil]

theorem served_finished (r : Reader μ) (batch : List Nat) :
    { r with answers := r.answers ++ batch.map fun c => (c, none) }.served = r.served := by
  rw [served, served, List.filter_append, List.map_append, List.filter_map]
  simp

theorem Ordered.wake (h : r.Ordered) : r.wake.Ordered := by
  rcases h with lined | ⟨stopped, order⟩
  · exact .inl lined.wake
  · refine .inr ⟨(wake_rest r).2.2.1.trans stopped, ?_⟩
    unfold Reader.wake
    split <;> exact order

theorem Ordered.push (h : r.Ordered) (m : μ) : (r.push m).Ordered := Ordered.wake h

theorem Ordered.halt (h : r.Ordered) : r.halt.Ordered := .inr ⟨rfl, h.served⟩

theorem Ordered.stop (h : r.Ordered) : r.stop.Ordered := h.halt.wake

theorem Ordered.resume (h : r.Ordered) (sound : r.Sound) : r.resume.Ordered := by
  rcases h with lined | ⟨stopped, order⟩
  · exact .inl (lined.resume sound)
  · refine .inr ⟨(resume_stopped stopped).2, ?_⟩
    unfold Reader.resume
    split
    next batch woken is =>
      rw [batch_stopped (by exact stopped), served_finished]
      exact order
    next => exact order

theorem Ordered.call (h : r.Ordered) (sound : r.Sound)
    (ran : r.woken = [] ∨ r.stopped = true) : r.call.Ordered := by
  have ended (stopped : r.stopped = true) : r.call.Ordered := by
    refine .inr ⟨(call_alike r).stopped.trans stopped, ?_⟩
    rw [Reader.call, attend_stopped (by exact stopped)]
    have same := served_finished { r with calls := r.calls + 1 } [r.calls]
    rw [List.map_singleton] at same
    rw [same]
    exact h.served
  rcases ran with ran | stopped
  · rcases h with lined | ⟨stopped, -⟩
    · exact .inl (lined.call sound ran)
    · exact ended stopped
  · exact ended stopped

theorem iterate_resume (h : r.Sound) (n : Nat) :
    (resume^[n] r).Sound ∧ (resume^[n] r).calls = r.calls := by
  induction n with
  | zero => exact ⟨h, rfl⟩
  | succ n ih =>
      rw [Function.iterate_succ_apply']
      exact ⟨ih.1.resume, (resume_alike _).calls.trans ih.2⟩

/-- Once an iterator has stopped, its woken reads go on and every call is settled. -/
theorem settles (h : r.Sound) (stopped : r.stopped = true) :
    ((resume^[r.woken.length] r).answers.map Prod.fst).Perm (List.range r.calls) := by
  have ends (n : Nat) : (resume^[n] r).stopped = true ∧
      (resume^[n] r).woken = r.woken.drop n := by
    induction n with
    | zero => exact ⟨stopped, rfl⟩
    | succ n ih =>
        obtain ⟨tail, still⟩ := resume_stopped ih.1
        rw [Function.iterate_succ_apply', tail, ih.2, List.tail_drop]
        exact ⟨still, rfl⟩
  obtain ⟨sound, calls⟩ := iterate_resume h r.woken.length
  obtain ⟨stopped', woken⟩ := ends r.woken.length
  have once := sound.once
  rw [woken, sound.awake stopped', calls, List.drop_length] at once
  simpa using once

theorem lookup_answer {answers : List (Nat × Option μ)} (nodup : (answers.map Prod.fst).Nodup)
    {answer : Nat × Option μ} (mem : answer ∈ answers) :
    answers.lookup answer.1 = some answer.2 := by
  induction answers with
  | nil => exact absurd mem List.not_mem_nil
  | cons first answers ih =>
      rw [List.map_cons, List.nodup_cons] at nodup
      rcases List.mem_cons.mp mem with same | later
      · rw [same, List.lookup_cons_self]
      · have ne : (answer.1 == first.1) = false := by
          rw [beq_eq_false_iff_ne]
          intro same
          exact nodup.1 (same ▸ List.mem_map_of_mem later)
        rw [List.lookup_cons, ne]
        exact ih nodup.2 later

/-- In order, the values of the calls are the messages taken, in the order they were heard. -/
theorem Ordered.values (h : r.Ordered) (sound : r.Sound) :
    r.values = (readout r.limit r.log).1 := by
  have once := sound.once
  simp only [List.append_nil, List.append_assoc] at once
  have nodup : (r.answers.map Prod.fst).Nodup :=
    (List.nodup_append.mp (once.nodup_iff.mpr List.nodup_range)).1
  have called (c : Nat) (mem : c ∈ r.answers.map Prod.fst) : c < r.calls :=
    List.mem_range.mp (once.subset (List.mem_append_left _ mem))
  have ofServed (c : Nat) : c ∈ r.served ↔ c < r.calls ∧ ((r.answers.lookup c).join).isSome := by
    constructor
    · intro mem
      obtain ⟨answer, has, rfl⟩ := List.mem_map.mp mem
      obtain ⟨has, some⟩ := List.mem_filter.mp has
      refine ⟨called _ (List.mem_map_of_mem has), ?_⟩
      rw [lookup_answer nodup has]
      exact some
    · rintro ⟨-, some⟩
      cases found : r.answers.lookup c with
      | none =>
          rw [found] at some
          cases some
      | some value =>
          rw [found] at some
          obtain ⟨before, after, split, -⟩ := List.lookup_eq_some_iff.mp found
          have has : (c, value) ∈ r.answers := by simp [split]
          exact List.mem_map.mpr ⟨(c, value), List.mem_filter.mpr ⟨has, some⟩, rfl⟩
  have same : (List.range r.calls).filter (fun c => ((r.answers.lookup c).join).isSome) =
      r.served := by
    refine List.Pairwise.eq_of_mem_iff (List.pairwise_lt_range.sublist List.filter_sublist)
      h.served fun c => ?_
    rw [ofServed, List.mem_filter, List.mem_range]
  have some {α : Type} (o : Option α) : (if o.isSome then o else none) = o := by
    cases o <;> rfl
  calc r.values
      = ((List.range r.calls).filter fun c => ((r.answers.lookup c).join).isSome).filterMap
          fun c => (r.answers.lookup c).join := by
        rw [Reader.values, List.filterMap_filter]
        simp only [some]
    _ = (r.answers.filter (·.2.isSome)).filterMap fun answer =>
          (r.answers.lookup answer.1).join := by
        rw [same, Reader.served, List.filterMap_map]
        rfl
    _ = r.answers.filterMap Prod.snd := by
        rw [List.filterMap_filter]
        refine List.filterMap_congr fun answer has => ?_
        rw [lookup_answer nodup has]
        exact some answer.2
    _ = (readout r.limit r.log).1 := by rw [sound.taken]

end Acts

end Reader

end NxgtData.Redis.Streams
