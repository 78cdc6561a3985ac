import Mathlib.Data.List.Induction
import Mathlib.Logic.Function.Iterate

/-!
A stream of values that a source is asked for one after another, as the web's `ReadableStream`
asks its `pull` with a queue of one. A pull that is under way holds the next one back, and one
that ends is followed by another only where somebody asked for it meanwhile.
-/
namespace NxgtData

/-- What a pull comes to. -/
inductive Pulled (β ε : Type) where
  | value (v : β)
  | nothing
  | closed
  | failed (error : ε)

/-- What a read comes to. -/
inductive ReadResult (β ε : Type) where
  | value (v : β)
  | done
  | failed (error : ε)
  deriving DecidableEq

inductive StreamState (ε : Type) where
  | readable
  /-- Closed by its source, with values that nobody has read. -/
  | closing
  | closed
  | errored (error : ε)

/-- Between two pulls, in one, or after one whose promise is not yet reacted to. -/
inductive PullPhase where
  | idle
  | waiting
  | ended

structure PullStream (σ β ε : Type) where
  source : σ
  started : Bool
  phase : PullPhase
  again : Bool
  queue : List β
  state : StreamState ε
  pending : Nat
  /-- The reads that are settled, in the order in which they were asked for. -/
  results : List (ReadResult β ε)

/-- What happens to a stream: a read, or a promise that is fulfilled. -/
inductive StreamEvent where
  | read
  | start
  | answer
  | resolve

namespace PullStream

variable {σ β ε : Type} (pull : σ → Pulled β ε × σ)

def fresh (source : σ) : PullStream σ β ε where
  source
  started := false
  phase := .idle
  again := false
  queue := []
  state := .readable
  pending := 0
  results := []

def shouldPull (s : PullStream σ β ε) : Bool :=
  match s.state with
  | .readable => s.started && (decide (0 < s.pending) || s.queue.isEmpty)
  | _ => false

def pullIfNeeded (s : PullStream σ β ε) : PullStream σ β ε :=
  if s.shouldPull then
    match s.phase with
    | .idle => { s with phase := .waiting }
    | _ => { s with again := true }
  else s

def read (s : PullStream σ β ε) : PullStream σ β ε :=
  match s.state, s.queue with
  | .closed, _ => { s with results := s.results ++ [.done] }
  | .errored error, _ => { s with results := s.results ++ [.failed error] }
  | .closing, [] => { s with results := s.results ++ [.done] }
  | .closing, v :: queue =>
      { s with
        queue, results := s.results ++ [.value v]
        state := if queue.isEmpty then .closed else .closing }
  | .readable, v :: queue => pullIfNeeded { s with queue, results := s.results ++ [.value v] }
  | .readable, [] => pullIfNeeded { s with pending := s.pending + 1 }

def enqueue (s : PullStream σ β ε) (v : β) : PullStream σ β ε :=
  pullIfNeeded
    (if s.pending = 0 then { s with queue := s.queue ++ [v] }
      else { s with pending := s.pending - 1, results := s.results ++ [.value v] })

def close (s : PullStream σ β ε) : PullStream σ β ε :=
  if s.queue.isEmpty then
    { s with
      state := .closed, pending := 0, results := s.results ++ List.replicate s.pending .done }
  else { s with state := .closing }

def fail (s : PullStream σ β ε) (error : ε) : PullStream σ β ε :=
  { s with
    state := .errored error, queue := [], pending := 0
    results := s.results ++ List.replicate s.pending (.failed error) }

def take (s : PullStream σ β ε) : Pulled β ε → PullStream σ β ε
  | .value v => s.enqueue v
  | .nothing => s
  | .closed => s.close
  | .failed error => s.fail error

/-- A pull that is under way ends. -/
def answer (s : PullStream σ β ε) : PullStream σ β ε :=
  match s.phase with
  | .waiting =>
      { s with source := (pull s.source).2, phase := .ended }.take (pull s.source).1
  | _ => s

/-- The reaction to a pull's promise. -/
def resolve (s : PullStream σ β ε) : PullStream σ β ε :=
  match s.phase with
  | .ended =>
      let idle := { s with phase := .idle, again := false }
      if s.again then idle.pullIfNeeded else idle
  | _ => s

def start (s : PullStream σ β ε) : PullStream σ β ε :=
  if s.started then s else pullIfNeeded { s with started := true }

def step (s : PullStream σ β ε) : StreamEvent → PullStream σ β ε
  | .read => s.read
  | .start => s.start
  | .answer => s.answer pull
  | .resolve => s.resolve

def run (source : σ) (events : List StreamEvent) : PullStream σ β ε :=
  events.foldl (step pull) (fresh source)

/-- What happens next where nobody reads. -/
def progress (s : PullStream σ β ε) : PullStream σ β ε :=
  if s.started then
    match s.phase with
    | .idle => s
    | .waiting => s.answer pull
    | .ended => s.resolve
  else s.start

/-- Every read that is asked for is settled, whenever it is asked for. -/
def Settles (source : σ) : Prop :=
  ∀ events, ∃ n, ((progress pull)^[n] (run pull source events)).pending = 0

/-- The values that were read. -/
def valuesOf : List (ReadResult β ε) → List β
  | [] => []
  | .value v :: rest => v :: valuesOf rest
  | _ :: rest => valuesOf rest

/-! The source. -/

/-- Pulls one after another, and what they came to. -/
inductive Chain : σ → List (Pulled β ε) → σ → Prop where
  | nil (source : σ) : Chain source [] source
  | cons {source source' outcomes} (rest : Chain (pull source).2 outcomes source') :
      Chain source ((pull source).1 :: outcomes) source'

/-- As long as the source goes on, each pull gives a value. -/
def Productive (source : σ) : Prop :=
  ∀ (values : List β) source',
    Chain pull source (values.map .value) source' → (pull source').1 ≠ .nothing

/-- The values among what pulls came to. -/
def given : List (Pulled β ε) → List β
  | [] => []
  | .value v :: rest => v :: given rest
  | _ :: rest => given rest

def Goes : Pulled β ε → Prop
  | .value _ | .nothing => True
  | .closed | .failed _ => False

variable {pull}

theorem Chain.append {source mid last : σ} {before after : List (Pulled β ε)}
    (first : Chain pull source before mid) (second : Chain pull mid after last) :
    Chain pull source (before ++ after) last := by
  induction first with
  | nil => exact second
  | cons _ ih => exact .cons (ih second)

theorem Chain.snoc {source last : σ} {outcomes : List (Pulled β ε)}
    (first : Chain pull source outcomes last) :
    Chain pull source (outcomes ++ [(pull last).1]) (pull last).2 :=
  first.append (.cons (.nil _))

theorem Chain.split {source last : σ} {before after : List (Pulled β ε)}
    (chain : Chain pull source (before ++ after) last) :
    ∃ mid, Chain pull source before mid ∧ Chain pull mid after last := by
  induction before generalizing source with
  | nil => exact ⟨source, .nil source, chain⟩
  | cons o before ih =>
      generalize is : o :: before ++ after = outcomes at chain
      cases chain with
      | nil => cases is
      | cons rest =>
          obtain ⟨first, later⟩ := List.cons.inj is
          rw [← later] at rest
          obtain ⟨mid, here, there⟩ := ih rest
          exact ⟨mid, first ▸ .cons here, there⟩

/-- Two chains of a source agree as far as the shorter one goes. -/
theorem Chain.agree {source last last' : σ} {some_ other : List (Pulled β ε)}
    (here : Chain pull source some_ last) (there : Chain pull source other last') :
    some_ <+: other ∨ other <+: some_ := by
  induction here generalizing other with
  | nil => exact .inl (List.nil_prefix)
  | cons _ ih =>
      cases there with
      | nil => exact .inr (List.nil_prefix)
      | cons rest =>
          obtain before | after := ih rest
          · exact .inl ((List.prefix_cons_inj _).mpr before)
          · exact .inr ((List.prefix_cons_inj _).mpr after)

theorem given_append (before after : List (Pulled β ε)) :
    given (before ++ after) = given before ++ given after := by
  induction before with
  | nil => rfl
  | cons o before ih =>
      cases o with
      | value v => exact congrArg (v :: ·) ih
      | nothing | closed | failed => exact ih

/-! What holds throughout a run. -/

section Frame

variable (s : PullStream σ β ε)

theorem pullIfNeeded_cases : s.pullIfNeeded = s ∨
    s.shouldPull = true ∧ (s.phase = .idle ∧ s.pullIfNeeded = { s with phase := .waiting } ∨
      s.phase ≠ .idle ∧ s.pullIfNeeded = { s with again := true }) := by
  rw [pullIfNeeded]
  split
  next needed =>
    refine .inr ⟨needed, ?_⟩
    cases phase : s.phase with
    | idle => exact .inl ⟨rfl, rfl⟩
    | waiting | ended => exact .inr ⟨by simp, rfl⟩
  next => exact .inl rfl

/-- Asking for a pull changes nothing but whether one runs. -/
theorem pullIfNeeded_keeps : s.pullIfNeeded.source = s.source ∧
    s.pullIfNeeded.started = s.started ∧ s.pullIfNeeded.queue = s.queue ∧
    s.pullIfNeeded.state = s.state ∧ s.pullIfNeeded.pending = s.pending ∧
    s.pullIfNeeded.results = s.results := by
  obtain same | ⟨-, ⟨-, is⟩ | ⟨-, is⟩⟩ := s.pullIfNeeded_cases
  · rw [same]
    exact ⟨rfl, rfl, rfl, rfl, rfl, rfl⟩
  · rw [is]
    exact ⟨rfl, rfl, rfl, rfl, rfl, rfl⟩
  · rw [is]
    exact ⟨rfl, rfl, rfl, rfl, rfl, rfl⟩

@[simp] theorem pullIfNeeded_source : s.pullIfNeeded.source = s.source := s.pullIfNeeded_keeps.1

@[simp] theorem pullIfNeeded_started : s.pullIfNeeded.started = s.started :=
  s.pullIfNeeded_keeps.2.1

@[simp] theorem pullIfNeeded_queue : s.pullIfNeeded.queue = s.queue := s.pullIfNeeded_keeps.2.2.1

@[simp] theorem pullIfNeeded_state : s.pullIfNeeded.state = s.state :=
  s.pullIfNeeded_keeps.2.2.2.1

@[simp] theorem pullIfNeeded_pending : s.pullIfNeeded.pending = s.pending :=
  s.pullIfNeeded_keeps.2.2.2.2.1

@[simp] theorem pullIfNeeded_results : s.pullIfNeeded.results = s.results :=
  s.pullIfNeeded_keeps.2.2.2.2.2

end Frame

theorem shouldPull_iff {s : PullStream σ β ε} :
    s.shouldPull = true ↔
      s.state = .readable ∧ s.started = true ∧ (0 < s.pending ∨ s.queue = []) := by
  rw [shouldPull]
  cases s.state with
  | readable => simp
  | closing | closed | errored => simp

/-- A pull only runs while the queue is empty, and reads only wait while it is. -/
structure Sound (s : PullStream σ β ε) : Prop where
  early : s.started = false → s.phase = .idle
  waiting : s.phase = .waiting → s.queue = [] ∧ s.state = .readable
  pending : 0 < s.pending → s.queue = [] ∧ s.state = .readable
  ended : s.state ≠ .readable → s.queue = []
  closing : s.state ≠ .closing

theorem Sound.pullIfNeeded {s : PullStream σ β ε} (sound : s.Sound) : s.pullIfNeeded.Sound := by
  obtain same | ⟨needed, ⟨idle, is⟩ | ⟨busy, is⟩⟩ := s.pullIfNeeded_cases
  · rwa [same]
  · obtain ⟨readable, started, wanted⟩ := shouldPull_iff.mp needed
    have empty : s.queue = [] := wanted.elim (fun pos => (sound.pending pos).1) id
    rw [is]
    exact ⟨fun early => by simp [started] at early, fun _ => ⟨empty, readable⟩, sound.pending,
      sound.ended, sound.closing⟩
  · rw [is]
    exact ⟨sound.early, sound.waiting, sound.pending, sound.ended, sound.closing⟩

theorem sound_fresh (source : σ) : (fresh source : PullStream σ β ε).Sound where
  early _ := rfl
  waiting h := by cases h
  pending h := absurd h (Nat.lt_irrefl 0)
  ended _ := rfl
  closing h := by cases h

theorem Sound.read {s : PullStream σ β ε} (sound : s.Sound) : s.read.Sound := by
  rw [PullStream.read]
  split
  next closed _ => exact ⟨sound.early, sound.waiting, sound.pending, sound.ended, sound.closing⟩
  next => exact ⟨sound.early, sound.waiting, sound.pending, sound.ended, sound.closing⟩
  next closing _ => exact absurd closing sound.closing
  next closing _ => exact absurd closing sound.closing
  next v queue readable held =>
    have full : s.queue ≠ [] := by simp [held]
    exact Sound.pullIfNeeded ⟨sound.early, fun waiting => absurd (sound.waiting waiting).1 full,
      fun pos => absurd (sound.pending pos).1 full, fun no => absurd readable no, sound.closing⟩
  next readable empty =>
    exact Sound.pullIfNeeded ⟨sound.early, fun _ => ⟨empty, readable⟩, fun _ => ⟨empty, readable⟩,
      fun _ => empty, sound.closing⟩

/-- What the answers of a source so far have made of the reads. -/
def Told (outcomes : List (Pulled β ε)) (s : PullStream σ β ε) : Prop :=
  match s.state with
  | .readable => (∀ o ∈ outcomes, Goes o) ∧
      ∃ read, s.results = read.map .value ∧ given outcomes = read ++ s.queue
  | .closing => False
  | .closed => ∃ before reads, outcomes = before ++ [.closed] ∧ (∀ o ∈ before, Goes o) ∧
      s.results = (given before).map .value ++ List.replicate reads .done
  | .errored error => ∃ before reads, outcomes = before ++ [.failed error] ∧
      (∀ o ∈ before, Goes o) ∧
      s.results = (given before).map .value ++ List.replicate reads (.failed error)

theorem told_readable {outcomes : List (Pulled β ε)} {s : PullStream σ β ε}
    (state : s.state = .readable) : s.Told outcomes ↔ (∀ o ∈ outcomes, Goes o) ∧
      ∃ read, s.results = read.map .value ∧ given outcomes = read ++ s.queue := by
  rw [Told, state]

theorem told_closed {outcomes : List (Pulled β ε)} {s : PullStream σ β ε}
    (state : s.state = .closed) : s.Told outcomes ↔ ∃ before reads,
      outcomes = before ++ [.closed] ∧ (∀ o ∈ before, Goes o) ∧
        s.results = (given before).map .value ++ List.replicate reads .done := by
  rw [Told, state]

theorem told_errored {outcomes : List (Pulled β ε)} {s : PullStream σ β ε} {error : ε}
    (state : s.state = .errored error) : s.Told outcomes ↔ ∃ before reads,
      outcomes = before ++ [.failed error] ∧ (∀ o ∈ before, Goes o) ∧
        s.results = (given before).map .value ++ List.replicate reads (.failed error) := by
  rw [Told, state]

theorem Told.pullIfNeeded {outcomes : List (Pulled β ε)} {s : PullStream σ β ε}
    (told : s.Told outcomes) : s.pullIfNeeded.Told outcomes := by
  rw [Told] at *
  simpa only [pullIfNeeded_state, pullIfNeeded_results, pullIfNeeded_queue] using told

theorem goes_snoc {outcomes : List (Pulled β ε)} {o : Pulled β ε} (goes : ∀ o ∈ outcomes, Goes o)
    (last : Goes o) : ∀ o' ∈ outcomes ++ [o], Goes o' := by
  intro o' mem
  obtain mem | mem := List.mem_append.mp mem
  · exact goes o' mem
  · rwa [List.mem_singleton.mp mem]

theorem Told.read {outcomes : List (Pulled β ε)} {s : PullStream σ β ε} (sound : s.Sound)
    (told : s.Told outcomes) : s.read.Told outcomes := by
  rw [PullStream.read]
  split
  next state =>
    obtain ⟨before, reads, is, goes, results⟩ := (told_closed state).mp told
    refine Iff.mpr (told_closed state) ⟨before, reads + 1, is, goes, ?_⟩
    rw [results, List.append_assoc, List.replicate_succ']
  next error state =>
    obtain ⟨before, reads, is, goes, results⟩ := (told_errored state).mp told
    refine Iff.mpr (told_errored state) ⟨before, reads + 1, is, goes, ?_⟩
    rw [results, List.append_assoc, List.replicate_succ']
  next closing _ => exact absurd closing sound.closing
  next closing _ => exact absurd closing sound.closing
  next v queue state held =>
    obtain ⟨goes, read, results, is⟩ := (told_readable state).mp told
    refine Told.pullIfNeeded (Iff.mpr (told_readable state) ⟨goes, read ++ [v], ?_, ?_⟩)
    · rw [results, List.map_append, List.map_singleton]
    · rw [is, held, List.append_assoc, List.singleton_append]
  next state empty =>
    exact Told.pullIfNeeded ((told_readable state).mpr ((told_readable state).mp told))

/-- What an answer makes of the reads, where the stream waited for it. -/
theorem Told.take {outcomes : List (Pulled β ε)} {s : PullStream σ β ε}
    (told : s.Told outcomes) (state : s.state = .readable) (empty : s.queue = [])
    (outcome : Pulled β ε) : (s.take outcome).Told (outcomes ++ [outcome]) := by
  obtain ⟨goes, read, results, is⟩ := (told_readable state).mp told
  rw [empty, List.append_nil] at is
  cases outcome with
  | nothing =>
      refine Iff.mpr (told_readable state)
        ⟨goes_snoc (o := .nothing) goes trivial, read, results, ?_⟩
      rw [given_append, is, PullStream.take, empty]
      rfl
  | value v =>
      rw [PullStream.take, enqueue]
      refine Told.pullIfNeeded ?_
      split
      next =>
        refine Iff.mpr (told_readable state)
          ⟨goes_snoc (o := .value v) goes trivial, read, results, ?_⟩
        rw [given_append, is, empty]
        rfl
      next =>
        refine Iff.mpr (told_readable state)
          ⟨goes_snoc (o := .value v) goes trivial, read ++ [v], ?_, ?_⟩
        · rw [results, List.map_append, List.map_singleton]
        · rw [given_append, is, empty, List.append_nil]
          rfl
  | closed =>
      rw [PullStream.take, close, if_pos (by simp [empty])]
      exact (told_closed rfl).mpr ⟨outcomes, s.pending, rfl, goes, by rw [results, is]⟩
  | failed error =>
      exact (told_errored rfl).mpr ⟨outcomes, s.pending, rfl, goes, by
        rw [PullStream.take, fail, results, is]⟩

theorem Sound.take {s : PullStream σ β ε} (sound : s.Sound) (state : s.state = .readable)
    (empty : s.queue = []) (phase : s.phase = .ended) (outcome : Pulled β ε) :
    (s.take outcome).Sound := by
  have notWaiting : s.phase ≠ .waiting := by simp [phase]
  cases outcome with
  | nothing => exact sound
  | value v =>
      rw [PullStream.take, enqueue]
      refine Sound.pullIfNeeded ?_
      split
      next none_ =>
        exact ⟨sound.early, fun w => absurd w notWaiting,
          fun pos => absurd none_ (Nat.ne_of_gt pos), fun no => absurd state no, sound.closing⟩
      next =>
        exact ⟨sound.early, fun w => absurd w notWaiting, fun _ => ⟨empty, state⟩, sound.ended,
          sound.closing⟩
  | closed =>
      rw [PullStream.take, close, if_pos (by simp [empty])]
      exact ⟨sound.early, fun w => absurd w notWaiting, fun pos => absurd pos (Nat.lt_irrefl 0),
        fun _ => empty, by simp⟩
  | failed error =>
      exact ⟨sound.early, fun w => absurd w notWaiting, fun pos => absurd pos (Nat.lt_irrefl 0),
        fun _ => rfl, by simp [PullStream.take, fail]⟩

/-- A stream whose source has been pulled from its start. -/
def Running (pull : σ → Pulled β ε × σ) (source : σ) (s : PullStream σ β ε) : Prop :=
  s.Sound ∧ ∃ outcomes, Chain pull source outcomes s.source ∧ s.Told outcomes

theorem running_fresh (source : σ) : Running pull source (fresh source) :=
  ⟨sound_fresh source, [], .nil source, (told_readable rfl).mpr ⟨by simp, [], rfl, rfl⟩⟩

theorem Running.started {source : σ} {s : PullStream σ β ε} (running : Running pull source s)
    (waiting : s.phase = .waiting) : s.started = true := by
  cases early : s.started with
  | true => rfl
  | false => simp [running.1.early early] at waiting

/-- A pull's end, before what it came to is taken. -/
theorem Running.ended {source : σ} {s : PullStream σ β ε} (running : Running pull source s)
    (waiting : s.phase = .waiting) (next : σ) :
    ({ s with source := next, phase := .ended } : PullStream σ β ε).Sound := by
  obtain ⟨sound, -⟩ := id running
  exact ⟨fun early => by simp [running.started waiting] at early, by simp, sound.pending,
    sound.ended, sound.closing⟩

theorem Running.answer {source : σ} {s : PullStream σ β ε} (running : Running pull source s) :
    Running pull source (s.answer pull) := by
  obtain ⟨sound, outcomes, chain, told⟩ := id running
  rw [PullStream.answer]
  split
  swap
  · exact running
  next waiting =>
  obtain ⟨empty, state⟩ := sound.waiting waiting
  have told' : ({ s with source := (pull s.source).2, phase := .ended } :
      PullStream σ β ε).Told outcomes := told
  refine ⟨(running.ended waiting _).take state empty rfl _, outcomes ++ [(pull s.source).1], ?_,
    told'.take state empty _⟩
  have source_ (s : PullStream σ β ε) (o : Pulled β ε) : (s.take o).source = s.source := by
    cases o with
    | value v =>
        rw [PullStream.take, enqueue, pullIfNeeded_source]
        split <;> rfl
    | nothing => rfl
    | closed =>
        rw [PullStream.take, close]
        split <;> rfl
    | failed => rfl
  rw [source_]
  exact chain.snoc

theorem Running.step {source : σ} {s : PullStream σ β ε} (running : Running pull source s)
    (event : StreamEvent) : Running pull source (s.step pull event) := by
  obtain ⟨sound, outcomes, chain, told⟩ := id running
  cases event with
  | read =>
      refine ⟨sound.read, outcomes, ?_, told.read sound⟩
      have source_ : s.read.source = s.source := by
        rw [PullStream.read]
        split <;> simp
      rwa [PullStream.step, source_]
  | start =>
      rw [PullStream.step, PullStream.start]
      split
      · exact running
      next early =>
        refine ⟨Sound.pullIfNeeded ⟨by simp, sound.waiting, sound.pending, sound.ended,
          sound.closing⟩, outcomes, ?_, Told.pullIfNeeded told⟩
        rwa [pullIfNeeded_source]
  | answer => exact running.answer
  | resolve =>
      rw [PullStream.step, PullStream.resolve]
      split
      swap
      · exact running
      next ended =>
      have idle : ({ s with phase := .idle, again := false } : PullStream σ β ε).Sound :=
        ⟨fun _ => rfl, by simp, sound.pending, sound.ended, sound.closing⟩
      dsimp only
      split
      · refine ⟨idle.pullIfNeeded, outcomes, ?_, Told.pullIfNeeded told⟩
        rwa [pullIfNeeded_source]
      · exact ⟨idle, outcomes, chain, told⟩

theorem running_run (source : σ) (events : List StreamEvent) :
    Running pull source (run pull source events) := by
  induction events using List.reverseRecOn with
  | nil => exact running_fresh source
  | append_singleton events event ih =>
      rw [run, List.foldl_append]
      exact ih.step event

/-! What the reads come to. -/

/-- What reads come to after the values, where a source ends so. -/
def ends : Pulled β ε → ReadResult β ε
  | .failed error => .failed error
  | _ => .done

/-- A source stops once. -/
theorem stops_once {before before' : List (Pulled β ε)} {fin fin' : Pulled β ε}
    (stops : ¬ Goes fin) (goes' : ∀ o ∈ before', Goes o)
    (le : before ++ [fin] <+: before' ++ [fin']) : before = before' ∧ fin = fin' := by
  obtain is | inside := List.prefix_concat_iff.mp le
  · obtain ⟨same, last⟩ := List.append_inj' is rfl
    exact ⟨same, List.singleton_inj.mp last⟩
  · exact absurd (goes' fin (inside.subset (by simp))) stops

/-- Where a source's pulls are these, the reads are what they gave, in their order, and then
its end. -/
theorem results_of_chain {source last : σ} {before : List (Pulled β ε)} {fin : Pulled β ε}
    (goes : ∀ o ∈ before, Goes o) (stops : ¬ Goes fin)
    (chain : Chain pull source (before ++ [fin]) last) (events : List StreamEvent) :
    (run pull source events).results <+: (given before).map .value ∨
      ∃ reads, (run pull source events).results =
        (given before).map .value ++ List.replicate reads (ends fin) := by
  obtain ⟨-, outcomes, here, told⟩ : Running pull source (run pull source events) :=
    running_run source events
  generalize run pull source events = s at here told
  have agree := here.agree chain
  have same {before' : List (Pulled β ε)} {fin' : Pulled β ε} (goes' : ∀ o ∈ before', Goes o)
      (stops' : ¬ Goes fin') (is : outcomes = before' ++ [fin']) :
      before' = before ∧ fin' = fin := by
    rw [is] at agree
    obtain le | le := agree
    · exact stops_once stops' goes le
    · obtain ⟨one, two⟩ := stops_once stops goes' le
      exact ⟨one.symm, two.symm⟩
  cases state : s.state with
  | readable =>
      obtain ⟨goes', read, results, is⟩ := (told_readable state).mp told
      have within : outcomes <+: before := by
        obtain le | le := agree
        · obtain is | inside := List.prefix_concat_iff.mp le
          · exact absurd (goes' fin (is ▸ by simp)) stops
          · exact inside
        · exact absurd (goes' fin (le.subset (by simp))) stops
      obtain ⟨rest, rfl⟩ := within
      refine .inl ?_
      rw [results, given_append, is, List.append_assoc, List.map_append]
      exact List.prefix_append _ _
  | closing => simp [Told, state] at told
  | closed =>
      obtain ⟨before', reads, is, goes', results⟩ := (told_closed state).mp told
      obtain ⟨rfl, rfl⟩ := same goes' (by simp [Goes]) is
      exact .inr ⟨reads, results⟩
  | errored error =>
      obtain ⟨before', reads, is, goes', results⟩ := (told_errored state).mp told
      obtain ⟨rfl, rfl⟩ := same goes' (by simp [Goes]) is
      exact .inr ⟨reads, results⟩

/-! Whether reads are settled. -/

/-- No read waits but for a pull that runs, or is to follow one. -/
structure Lively (s : PullStream σ β ε) : Prop where
  busy : s.started = true → 0 < s.pending → s.phase ≠ .idle
  again : 0 < s.pending → s.phase = .ended → s.again = true

theorem lively_of_none {s : PullStream σ β ε} (none_ : s.pending = 0) : s.Lively :=
  ⟨fun _ pos => absurd none_ (Nat.ne_of_gt pos), fun pos => absurd none_ (Nat.ne_of_gt pos)⟩

theorem lively_pullIfNeeded {s : PullStream σ β ε} (early : s.started = false → s.phase = .idle)
    (pending : 0 < s.pending → s.state = .readable) : s.pullIfNeeded.Lively := by
  by_cases needed : s.shouldPull = true
  · obtain same | ⟨-, ⟨-, is⟩ | ⟨busy, is⟩⟩ := s.pullIfNeeded_cases
    · rw [pullIfNeeded, if_pos needed] at same ⊢
      cases phase : s.phase with
      | idle => exact ⟨by simp, by simp⟩
      | waiting | ended => exact ⟨by simp, by simp⟩
    · rw [is]
      exact ⟨by simp, by simp⟩
    · rw [is]
      exact ⟨fun _ _ => busy, fun _ _ => rfl⟩
  · rw [pullIfNeeded, if_neg needed]
    rw [shouldPull_iff] at needed
    have late (pos : 0 < s.pending) : s.started = false := by
      cases started : s.started with
      | false => rfl
      | true => exact absurd ⟨pending pos, started, .inl pos⟩ needed
    exact ⟨fun started pos => by simp [late pos] at started,
      fun pos ended => by simp [early (late pos)] at ended⟩

/-- Until its end, a productive source has given nothing but values. -/
theorem Productive.values {source last : σ} {outcomes : List (Pulled β ε)}
    (productive : Productive pull source) (chain : Chain pull source outcomes last)
    (goes : ∀ o ∈ outcomes, Goes o) : ∃ values : List β, outcomes = values.map .value := by
  induction chain with
  | nil => exact ⟨[], rfl⟩
  | @cons source last outcomes rest ih =>
      have here := productive [] source (.nil source)
      have going := goes _ List.mem_cons_self
      cases first : (pull source).1 with
      | nothing => exact absurd first here
      | closed | failed => rw [first] at going; cases going
      | value v =>
          have later : Productive pull (pull source).2 := fun values _ chain =>
            productive (v :: values) _ (by
              rw [List.map_cons, ← first]
              exact .cons chain)
          obtain ⟨values, is⟩ := ih later fun o mem => goes o (List.mem_cons_of_mem _ mem)
          exact ⟨v :: values, by rw [is, List.map_cons]⟩

/-- A source is productive where none of its pulls until its end gives nothing. -/
theorem productive_iff {source last : σ} {before : List (Pulled β ε)} {fin : Pulled β ε}
    (goes : ∀ o ∈ before, Goes o) (stops : ¬ Goes fin)
    (chain : Chain pull source (before ++ [fin]) last) :
    Productive pull source ↔ .nothing ∉ before := by
  constructor
  · intro productive mem
    obtain ⟨mid, here, -⟩ := chain.split
    obtain ⟨values, rfl⟩ := productive.values here goes
    obtain ⟨v, -, is⟩ := List.mem_map.mp mem
    cases is
  · intro none_ values mid here nothing
    have going : ∀ o ∈ values.map Pulled.value ++ [.nothing], Goes (o : Pulled β ε) := by
      intro o mem
      obtain mem | mem := List.mem_append.mp mem
      · obtain ⟨v, -, rfl⟩ := List.mem_map.mp mem
        trivial
      · rw [List.mem_singleton.mp mem]
        trivial
    have there := here.snoc
    rw [nothing] at there
    obtain le | le := there.agree chain
    · obtain is | inside := List.prefix_concat_iff.mp le
      · exact stops (going fin (is ▸ by simp))
      · exact none_ (inside.subset (by simp))
    · exact stops (going fin (le.subset (by simp)))

theorem Productive.next {source : σ} {s : PullStream σ β ε} (productive : Productive pull source)
    (running : Running pull source s) (state : s.state = .readable) :
    (pull s.source).1 ≠ .nothing := by
  obtain ⟨-, outcomes, chain, told⟩ := running
  obtain ⟨values, rfl⟩ := productive.values chain ((told_readable state).mp told).1
  exact productive values _ chain

theorem Lively.take {s : PullStream σ β ε} (sound : s.Sound) (empty : s.queue = [])
    {outcome : Pulled β ε} (some_ : outcome ≠ .nothing) : (s.take outcome).Lively := by
  cases outcome with
  | nothing => exact absurd rfl some_
  | value v =>
      rw [PullStream.take, enqueue]
      split
      next none_ => exact lively_pullIfNeeded sound.early fun pos => absurd none_ (Nat.ne_of_gt pos)
      next some_ =>
        exact lively_pullIfNeeded sound.early fun _ => (sound.pending (Nat.pos_of_ne_zero some_)).2
  | closed =>
      rw [PullStream.take, close, if_pos (by simp [empty])]
      exact lively_of_none rfl
  | failed => exact lively_of_none rfl

theorem Lively.step {source : σ} {s : PullStream σ β ε} (productive : Productive pull source)
    (running : Running pull source s) (lively : s.Lively) (event : StreamEvent) :
    (s.step pull event).Lively := by
  obtain ⟨sound, -⟩ := id running
  have waits (state : s.state ≠ .readable) : s.pending = 0 :=
    Nat.eq_zero_of_not_pos fun pos => state (sound.pending pos).2
  cases event with
  | read =>
      rw [PullStream.step, PullStream.read]
      split
      next state => exact lively_of_none (waits (by simp [state]))
      next state => exact lively_of_none (waits (by simp [state]))
      next closing _ => exact absurd closing sound.closing
      next closing _ => exact absurd closing sound.closing
      next state _ => exact lively_pullIfNeeded sound.early fun _ => state
      next state _ => exact lively_pullIfNeeded sound.early fun _ => state
  | start =>
      rw [PullStream.step, PullStream.start]
      split
      · exact lively
      · exact lively_pullIfNeeded (by simp) fun pos => (sound.pending pos).2
  | answer =>
      rw [PullStream.step, PullStream.answer]
      split
      swap
      · exact lively
      next waiting =>
      obtain ⟨empty, state⟩ := sound.waiting waiting
      exact Lively.take (running.ended waiting _) empty (productive.next running state)
  | resolve =>
      rw [PullStream.step, PullStream.resolve]
      split
      swap
      · exact lively
      next ended =>
      dsimp only
      split
      · exact lively_pullIfNeeded (fun _ => rfl) fun pos => (sound.pending pos).2
      next not_ =>
        exact lively_of_none (Nat.eq_zero_of_not_pos fun pos => not_ (lively.again pos ended))

theorem lively_run {source : σ} (productive : Productive pull source) (events : List StreamEvent) :
    (run pull source events).Lively := by
  induction events using List.reverseRecOn with
  | nil => exact lively_of_none rfl
  | append_singleton events event ih =>
      rw [run, List.foldl_append]
      exact Lively.step productive (running_run source events) ih event

/-- The steps that a stream takes at most until its reads are settled. -/
def debt (s : PullStream σ β ε) : Nat :=
  2 * s.pending + (if s.started then 0 else 2) +
    match s.phase with
    | .ended => 1
    | _ => 0

theorem progress_step (s : PullStream σ β ε) :
    s.progress pull = s ∨ ∃ event, s.progress pull = s.step pull event := by
  rw [progress]
  split
  · cases s.phase with
    | idle => exact .inl rfl
    | waiting => exact .inr ⟨.answer, rfl⟩
    | ended => exact .inr ⟨.resolve, rfl⟩
  · exact .inr ⟨.start, rfl⟩

theorem pullIfNeeded_debt (s : PullStream σ β ε) : s.pullIfNeeded.debt = s.debt := by
  rw [debt, pullIfNeeded_pending, pullIfNeeded_started, debt]
  obtain same | ⟨-, ⟨idle, is⟩ | ⟨-, is⟩⟩ := s.pullIfNeeded_cases
  · rw [same]
  · rw [is, idle]
  · rw [is]

/-- Whatever comes next is a step towards the reads that wait. -/
theorem progress_debt {source : σ} {s : PullStream σ β ε} (productive : Productive pull source)
    (running : Running pull source s) (lively : s.Lively) (waits : 0 < s.pending) :
    (s.progress pull).debt < s.debt := by
  obtain ⟨sound, -⟩ := id running
  rw [progress]
  split
  next started =>
    cases phase : s.phase with
    | idle => exact absurd phase (lively.busy started waits)
    | ended =>
        dsimp only
        rw [resolve, phase]
        dsimp only
        rw [if_pos (lively.again waits phase), pullIfNeeded_debt]
        simp [debt, phase]
    | waiting =>
        obtain ⟨empty, state⟩ := sound.waiting phase
        have some_ := productive.next running state
        dsimp only
        rw [answer, phase]
        dsimp only
        cases outcome : (pull s.source).1 with
        | nothing => exact absurd outcome some_
        | value v =>
            rw [take, enqueue, pullIfNeeded_debt, if_neg (Nat.ne_of_gt waits)]
            simp [debt, phase, started]
            omega
        | closed =>
            rw [take, close, if_pos (by simp [empty])]
            simp [debt, phase, started]
            omega
        | failed error =>
            simp [take, fail, debt, phase, started]
            omega
  next early =>
    have idle := sound.early (Bool.eq_false_iff.mpr early)
    rw [start, if_neg early, pullIfNeeded_debt]
    simp [debt, idle, early]

theorem progress_running {source : σ} {s : PullStream σ β ε} (running : Running pull source s) :
    Running pull source (s.progress pull) := by
  obtain is | ⟨event, is⟩ := @progress_step _ _ _ pull s
  · rwa [is]
  · rw [is]
    exact running.step event

theorem progress_lively {source : σ} {s : PullStream σ β ε} (productive : Productive pull source)
    (running : Running pull source s) (lively : s.Lively) : (s.progress pull).Lively := by
  obtain is | ⟨event, is⟩ := @progress_step _ _ _ pull s
  · rwa [is]
  · rw [is]
    exact lively.step productive running event

theorem settles_of_productive {source : σ} (productive : Productive pull source) :
    Settles pull source := by
  intro events
  have running : Running pull source (run pull source events) := running_run source events
  have lively := lively_run productive events
  generalize run pull source events = s at running lively
  induction owed : s.debt using Nat.strongRecOn generalizing s with
  | ind n ih =>
      by_cases waits : 0 < s.pending
      · subst owed
        obtain ⟨n, settled⟩ := ih _ (progress_debt productive running lively waits) _
          (progress_running running) (progress_lively productive running lively) rfl
        exact ⟨n + 1, by rwa [Function.iterate_succ_apply]⟩
      · exact ⟨0, Nat.eq_zero_of_not_pos waits⟩

/-! A stream that is closed from its start. -/

theorem closed_foldl (source : σ) (events : List StreamEvent) : ∃ started reads,
    events.foldl (step pull) { (fresh source : PullStream σ β ε) with state := .closed } =
      { (fresh source : PullStream σ β ε) with
        state := .closed, started, results := List.replicate reads .done } := by
  induction events using List.reverseRecOn with
  | nil => exact ⟨false, 0, rfl⟩
  | append_singleton events event ih =>
      obtain ⟨started, reads, is⟩ := ih
      rw [List.foldl_append, is]
      cases event with
      | read =>
          refine ⟨started, reads + 1, ?_⟩
          rw [List.replicate_succ']
          rfl
      | start =>
          refine ⟨true, reads, ?_⟩
          cases started with
          | true => rfl
          | false => rfl
      | answer | resolve => exact ⟨started, reads, rfl⟩

theorem valuesOf_append (before after : List (ReadResult β ε)) :
    valuesOf (before ++ after) = valuesOf before ++ valuesOf after := by
  induction before with
  | nil => rfl
  | cons o before ih =>
      cases o with
      | value v => exact congrArg (v :: ·) ih
      | done | failed => exact ih

theorem valuesOf_map (values : List β) :
    valuesOf (values.map .value : List (ReadResult β ε)) = values := by
  induction values with
  | nil => rfl
  | cons v values ih => exact congrArg (v :: ·) ih

theorem valuesOf_done (reads : Nat) :
    valuesOf (List.replicate reads .done : List (ReadResult β ε)) = [] := by
  induction reads with
  | zero => rfl
  | succ reads ih => exact ih

/-! A pull that gives nothing. -/

/-- A pull runs that was asked for by the one read that waits. -/
def Awaited (source : σ) (read : List (ReadResult β ε)) (s : PullStream σ β ε) : Prop :=
  s = { source, started := true, phase := .waiting, again := false, queue := [],
        state := .readable, pending := 1, results := read }

theorem awaited_value {source : σ} {read : List (ReadResult β ε)} {s : PullStream σ β ε} {v : β}
    (awaited : s.Awaited source read) (value : (pull source).1 = .value v) :
    ([.answer, .read, .resolve].foldl (step pull) s).Awaited (pull source).2
      (read ++ [.value v]) := by
  rw [Awaited] at awaited
  subst awaited
  simp [step, answer, value, take, enqueue, pullIfNeeded, shouldPull, PullStream.read, resolve,
    Awaited]

/-- A reader that asks for one value at a time. -/
theorem awaited_values {source last : σ} (values : List β)
    (chain : Chain pull source (values.map .value) last) {read : List (ReadResult β ε)}
    {s : PullStream σ β ε} (awaited : s.Awaited source read) :
    ∃ events : List StreamEvent,
      (events.foldl (step pull) s).Awaited last (read ++ values.map .value) := by
  induction values generalizing source read s with
  | nil =>
      cases chain
      exact ⟨[], by simpa using awaited⟩
  | cons v values ih =>
      generalize is : List.map Pulled.value (v :: values) = outcomes at chain
      cases chain with
      | nil => cases is
      | cons rest =>
          obtain ⟨value, later⟩ := List.cons.inj is
          rw [← later] at rest
          obtain ⟨events, there⟩ := ih rest (awaited_value awaited value.symm)
          refine ⟨[.answer, .read, .resolve] ++ events, ?_⟩
          rw [List.foldl_append]
          simpa using there

theorem progress_stuck {s : PullStream σ β ε} (started : s.started = true) (idle : s.phase = .idle)
    (n : Nat) : (progress pull)^[n] s = s := by
  have still : s.progress pull = s := by rw [progress, if_pos started, idle]
  exact Function.iterate_fixed still n

theorem productive_of_settles {source : σ} (settles : Settles pull source) :
    Productive pull source := by
  intro values last chain nothing
  have first : (run pull source [.read, .start]).Awaited source [] := by
    simp [run, step, fresh, start, PullStream.read, pullIfNeeded, shouldPull, Awaited]
  obtain ⟨events, awaited⟩ := awaited_values values chain first
  obtain ⟨n, settled⟩ := settles ([.read, .start] ++ events ++ [.answer, .resolve])
  rw [run, List.foldl_append, List.foldl_append, ← run] at settled
  rw [Awaited] at awaited
  rw [awaited] at settled
  have stuck : (([.answer, .resolve] : List StreamEvent).foldl (step pull)
      ({ source := last, started := true, phase := .waiting, again := false, queue := [],
         state := .readable, pending := 1, results := [] ++ values.map .value } :
        PullStream σ β ε)) =
      { source := (pull last).2, started := true, phase := .idle, again := false, queue := [],
        state := .readable, pending := 1, results := [] ++ values.map .value } := by
    simp [step, answer, nothing, take, resolve]
  rw [stuck, progress_stuck rfl rfl] at settled
  cases settled

/-- Every read of a stream is settled just where no pull of its source gives nothing. -/
theorem settles_iff {source : σ} : Settles pull source ↔ Productive pull source :=
  ⟨productive_of_settles, settles_of_productive⟩

theorem given_map (values : List β) : given (values.map .value : List (Pulled β ε)) = values := by
  induction values with
  | nil => rfl
  | cons v values ih => exact congrArg (v :: ·) ih

end PullStream

end NxgtData
