import NxgtData.Changes.Delivery

/-!
Whole runs of a subscription: where it started, what it has delivered in whatever order
reads, failures, handlers and calls of `close` came, and that nothing is delivered once a
call of `close` from outside has resolved.
-/
namespace NxgtData.Changes

variable {V : Type}

/-- The events handled. -/
def World.handledEvents (w : World V) : List Nat :=
  match w.origin with
  | none => []
  | some start => List.range' start w.count

/-- The events handled, and one that the handler was called with besides. -/
def World.begunEvents (w : World V) : List Nat :=
  match w.origin with
  | none => []
  | some start => List.range' start w.begun

section Run
variable {ctx : Collection V} {options : ChangeOptions Token} {w : World V}

/-- What the ends of the two loops leave alone. -/
structure Keeps (w w' : World V) : Prop where
  log : w'.log = w.log
  stream : w'.stream = w.stream
  origin : w'.origin = w.origin
  closeResolved : w'.closeResolved = w.closeResolved

theorem keeps_readOn (w : World V) : Keeps w w.readOn := by
  unfold World.readOn
  split
  · exact ⟨rfl, rfl, rfl, rfl⟩
  · exact ⟨rfl, rfl, rfl, rfl⟩

theorem keeps_eventHandled (w : World V) (index : Nat) : Keeps w (w.eventHandled index) := by
  have loop := keeps_readOn { w with
    handled := some (.event index), token := some (.event index)
    position := some (.event index), count := w.count + 1 }
  exact ⟨loop.log, loop.stream, loop.origin, loop.closeResolved⟩

theorem keeps_handlerSettles (w : World V) (ok : Bool) : Keeps w (w.handlerSettles options ok) := by
  unfold World.handlerSettles
  split
  · split
    · exact keeps_eventHandled w _
    · split
      · exact ⟨rfl, rfl, rfl, rfl⟩
      · exact ⟨rfl, rfl, rfl, rfl⟩
  · exact ⟨rfl, rfl, rfl, rfl⟩

theorem keeps_onErrorSettles (w : World V) (ok : Bool) : Keeps w (w.onErrorSettles options ok) := by
  unfold World.onErrorSettles
  split
  · split
    · exact keeps_eventHandled w _
    · exact ⟨rfl, rfl, rfl, rfl⟩
  · exact ⟨rfl, rfl, rfl, rfl⟩
  · exact ⟨rfl, rfl, rfl, rfl⟩

/-- A subscription that starts now starts behind the events there are. -/
structure Late (n : Nat) (w : World V) : Prop where
  log : n ≤ w.log.length
  origin : ∀ start, w.origin = some start → n ≤ start
  cursor : ∀ index, w.stream.cursor = some index → n ≤ index

namespace Late
variable {n : Nat} {w' : World V}

theorem keeps (h : Late n w) (keeps : Keeps w w') : Late n w' where
  log := by rw [keeps.log]; exact h.log
  origin := by rw [keeps.origin]; exact h.origin
  cursor := by rw [keeps.stream]; exact h.cursor

theorem answered (h : Late n w) : Late n w.answered where
  log := h.log
  origin start eq := by
    rw [World.answered] at eq
    cases origin : w.origin with
    | none => exact h.cursor start (by simpa [origin] using eq)
    | some s => exact h.origin start (by simpa [origin] using eq)
  cursor := h.cursor

theorem readEvent (h : Late n w) : Late n (w.readEvent ctx options) := by
  unfold World.readEvent
  split
  next index _ cursor =>
    split
    · exact h
    next event _ =>
      have passed : Late n { w.answered with
          stream := { w.stream with cursor := some (index + 1), heard := true } } := {
        log := h.log
        origin := h.answered.origin
        cursor := fun c eq => by
          cases eq
          exact Nat.le_succ_of_le (h.cursor index cursor) }
      dsimp only
      split
      · exact passed.keeps ⟨rfl, rfl, rfl, rfl⟩
      · split
        · exact passed.keeps (keeps_eventHandled _ _)
        · exact ⟨passed.log, passed.origin, passed.cursor⟩
  · exact h

theorem readFails (h : Late n w) (error : StreamError) (token : Option Token) :
    Late n (w.readFails options error token) := by
  unfold World.readFails
  split
  next ok =>
    obtain ⟨_, shows⟩ := ok
    split
    · exact h.keeps ⟨rfl, rfl, rfl, rfl⟩
    · have named : ∀ start, w.origin.or (token.map Token.past) = some start → n ≤ start := by
        intro start eq
        cases origin : w.origin with
        | some s => exact h.origin start (by simpa [origin] using eq)
        | none =>
            cases token with
            | none => simp [origin] at eq
            | some t =>
                have cursor : w.stream.cursor = some t.past := shows
                exact h.cursor start (by simpa [origin, cursor] using eq)
      dsimp only
      split
      · exact ⟨h.log, named, h.cursor⟩
      · exact ⟨h.log, named, h.cursor⟩
  · exact h

theorem reopen (h : Late n w) (sound : Sound ctx options w) : Late n w.reopen := by
  unfold World.reopen
  split
  · exact h.keeps ⟨rfl, rfl, rfl, rfl⟩
  · refine ⟨h.log, h.origin, fun index eq => ?_⟩
    obtain ⟨t, token, rfl⟩ := Option.map_eq_some_iff.mp eq
    cases origin : w.origin with
    | none =>
        obtain ⟨fresh, _⟩ := sound.fresh origin
        exact absurd (fresh.token.symm.trans token) nofun
    | some start =>
        obtain ⟨ordered, _⟩ := sound.ordered start origin
        rw [ordered.token t token]
        exact Nat.le_add_right_of_le (h.origin start origin)

theorem step (h : Late n w) (sound : Sound ctx options w) (a : Act V) :
    Late n (w.step ctx options a) := by
  cases a with
  | emit event =>
      refine ⟨?_, h.origin, h.cursor⟩
      simpa [World.step] using Nat.le_succ_of_le h.log
  | opens =>
      simp only [World.step]
      split
      · exact ⟨h.log, h.origin, fun c eq => by cases eq; exact h.log⟩
      · exact h
  | readEvent => exact h.readEvent
  | readNull token =>
      simp only [World.step, World.readNull]
      split
      · have read : Late n { w.answered with position := token.or w.position } :=
          ⟨h.log, h.answered.origin, h.cursor⟩
        exact read.keeps (keeps_readOn _)
      · exact h
  | readFails error token => exact h.readFails error token
  | paused =>
      simp only [World.step]
      split
      · exact h.reopen sound
      · exact h
  | handler ok => exact h.keeps (keeps_handlerSettles w ok)
  | onError ok => exact h.keeps (keeps_onErrorSettles w ok)
  | close inside => exact h.keeps ⟨rfl, rfl, rfl, rfl⟩
  | closeResolves =>
      simp only [World.step]
      repeat' split
      all_goals exact ⟨h.log, h.origin, h.cursor⟩

end Late

/-- Once it started, a subscription keeps its start. -/
theorem step_origin {start : Nat} (h : w.origin = some start) (a : Act V) :
    (w.step ctx options a).origin = some start := by
  cases a with
  | emit _ | close _ => exact h
  | opens | paused | closeResolves =>
      simp only [World.step, World.reopen]
      repeat' split
      all_goals exact h
  | readEvent =>
      simp only [World.step, World.readEvent]
      repeat' split
      · exact h
      · simpa [World.answered, World.finish] using Or.inl h
      · rw [(keeps_eventHandled _ _).origin]
        simpa [World.answered] using Or.inl h
      · simpa [World.answered] using Or.inl h
      · exact h
  | readNull token =>
      simp only [World.step, World.readNull]
      split
      · rw [(keeps_readOn _).origin]
        simpa [World.answered] using Or.inl h
      · exact h
  | readFails error token =>
      simp only [World.step, World.readFails]
      repeat' split
      · exact h
      · simpa [World.giveUp] using Or.inl h
      · simpa using Or.inl h
      · exact h
  | handler ok => rw [World.step, (keeps_handlerSettles w ok).origin, h]
  | onError ok => rw [World.step, (keeps_onErrorSettles w ok).origin, h]

/-- Nothing is delivered once the subscription is over. -/
theorem step_over {outcome : Closed} (h : w.phase = .done outcome) (a : Act V) :
    (w.step ctx options a).phase = .done outcome ∧
      (w.step ctx options a).delivered = w.delivered := by
  cases a with
  | emit _ | close _ => exact ⟨h, rfl⟩
  | opens =>
      simp only [World.step]
      split
      · exact ⟨h, rfl⟩
      · exact ⟨h, rfl⟩
  | readEvent | handler _ | onError _ =>
      simp [World.step, World.readEvent, World.handlerSettles, World.onErrorSettles, h]
  | readNull _ | readFails _ _ | paused =>
      simp [World.step, World.readNull, World.readFails, h]
  | closeResolves =>
      simp only [World.step, h]
      split
      · exact ⟨h, rfl⟩
      · exact ⟨rfl, rfl⟩

/-- A call from outside resolves once the subscription is over. -/
def Settles (w : World V) : Prop := w.closeResolved → ∃ outcome, w.phase = .done outcome

theorem settles_step (h : Settles w) (a : Act V) : Settles (w.step ctx options a) := by
  intro resolved
  cases before : w.closeResolved with
  | true =>
      obtain ⟨outcome, phase⟩ := h before
      exact ⟨outcome, (step_over phase a).1⟩
  | false =>
      cases a with
      | closeResolves =>
          simp only [World.step] at resolved ⊢
          split at resolved
          next outcome phase =>
            refine ⟨outcome, ?_⟩
            split
            · exact phase
            · exact phase
          · exact absurd (before.symm.trans resolved) Bool.false_ne_true
      | emit _ | close _ => exact absurd (before.symm.trans resolved) Bool.false_ne_true
      | handler ok =>
          rw [World.step, (keeps_handlerSettles w ok).closeResolved] at resolved
          exact absurd (before.symm.trans resolved) Bool.false_ne_true
      | onError ok =>
          rw [World.step, (keeps_onErrorSettles w ok).closeResolved] at resolved
          exact absurd (before.symm.trans resolved) Bool.false_ne_true
      | opens | paused | readFails _ _ =>
          simp only [World.step, World.reopen, World.readFails] at resolved
          repeat' split at resolved
          all_goals exact absurd (before.symm.trans resolved) Bool.false_ne_true
      | readNull token =>
          simp only [World.step, World.readNull] at resolved
          split at resolved
          · rw [(keeps_readOn _).closeResolved] at resolved
            exact absurd (before.symm.trans resolved) Bool.false_ne_true
          · exact absurd (before.symm.trans resolved) Bool.false_ne_true
      | readEvent =>
          simp only [World.step, World.readEvent] at resolved
          repeat' split at resolved
          · exact absurd (before.symm.trans resolved) Bool.false_ne_true
          · exact absurd (before.symm.trans resolved) Bool.false_ne_true
          · rw [(keeps_eventHandled _ _).closeResolved] at resolved
            exact absurd (before.symm.trans resolved) Bool.false_ne_true
          · exact absurd (before.symm.trans resolved) Bool.false_ne_true
          · exact absurd (before.symm.trans resolved) Bool.false_ne_true

theorem foldl_over {outcome : Closed} (h : w.phase = .done outcome) (acts : List (Act V)) :
    (acts.foldl (·.step ctx options) w).delivered = w.delivered := by
  induction acts generalizing w with
  | nil => rfl
  | cons a acts ih =>
      obtain ⟨phase, delivered⟩ := @step_over V ctx options w outcome h a
      exact (ih phase).trans delivered

theorem foldl_origin {start : Nat} (h : w.origin = some start) (acts : List (Act V)) :
    (acts.foldl (·.step ctx options) w).origin = some start := by
  induction acts generalizing w with
  | nil => exact h
  | cons a acts ih => exact ih (step_origin h a)

theorem run_append (log : List (Event V)) (acts more : List (Act V)) :
    run ctx options log (acts ++ more) =
      more.foldl (·.step ctx options) (run ctx options log acts) := by
  rw [run, List.foldl_append]
  rfl

theorem run_settles (log : List (Event V)) (acts : List (Act V)) :
    Settles (run ctx options log acts) := by
  induction acts using List.reverseRecOn with
  | nil => exact nofun
  | append_singleton acts a ih =>
      rw [run_append]
      exact settles_step ih a

theorem run_late (log : List (Event V)) (now : options.startAfter = none)
    (acts : List (Act V)) : Late log.length (run ctx options log acts) := by
  induction acts using List.reverseRecOn with
  | nil =>
      refine ⟨Nat.le_refl _, fun start eq => ?_, fun index eq => ?_⟩
      · simp [run, subscribe, now] at eq
      · simp [run, subscribe, watch, now] at eq
  | append_singleton acts a ih =>
      rw [run_append]
      exact ih.step (run_sound log acts) a

/-- Where a subscription starts: behind the token it was given, or at an event that came
after it subscribed. -/
theorem run_start (log : List (Event V)) (acts : List (Act V)) {start : Nat}
    (origin : (run ctx options log acts).origin = some start) :
    match options.startAfter with
    | some token => start = token.past
    | none => log.length ≤ start := by
  split
  next token given =>
    have first : (subscribe options log : World V).origin = some token.past := by
      simp [subscribe, given]
    have same := @foldl_origin V ctx options _ _ first acts
    exact Option.some.inj (origin.symm.trans same)
  next now => exact (run_late log now acts).origin start origin

/-- A token is behind every event handled, and before every other. -/
theorem handledEvents_past {start : Nat} (origin : w.origin = some start) (index : Nat)
    (from_ : start ≤ index) (unhandled : index ∉ w.handledEvents) : start + w.count ≤ index := by
  simp only [World.handledEvents, origin, List.mem_range'_1, not_and] at unhandled
  exact Nat.le_of_not_lt (unhandled from_)

namespace Sound

theorem delivered (h : Sound ctx options w) :
    w.delivered = w.begunEvents.filterMap (image ctx options w.log) ∧
      ∀ index ∈ w.begunEvents, index < w.log.length := by
  unfold World.begunEvents
  cases origin : w.origin with
  | none =>
      obtain ⟨fresh, _⟩ := h.fresh origin
      exact ⟨fresh.delivered, nofun⟩
  | some start =>
      obtain ⟨ordered, _⟩ := h.ordered start origin
      exact ⟨ordered.delivered, ordered.bound⟩

theorem handled (h : Sound ctx options w) :
    w.handled = w.handledEvents.getLast?.map .event := by
  unfold World.handledEvents
  cases origin : w.origin with
  | none =>
      obtain ⟨fresh, _⟩ := h.fresh origin
      exact fresh.handled
  | some start => exact (h.ordered start origin).1.handled

theorem position (h : Sound ctx options w) {p : Token} (eq : w.position = some p) :
    ∃ start, w.origin = some start ∧ w.Ordered ctx options start ∧ p.past ≤ start + w.count := by
  cases origin : w.origin with
  | none =>
      obtain ⟨fresh, _⟩ := h.fresh origin
      exact absurd (fresh.position.symm.trans eq) nofun
  | some start =>
      obtain ⟨ordered, _⟩ := h.ordered start origin
      exact ⟨start, rfl, ordered, ordered.position p eq⟩

/-- The event whose handler ended the subscription is the first not handled. -/
theorem failed (h : Sound ctx options w) {index : Nat} (eq : w.failedAt = some index) :
    ∃ start, w.origin = some start ∧ index = start + w.count := by
  cases origin : w.origin with
  | none =>
      obtain ⟨fresh, _⟩ := h.fresh origin
      exact absurd (fresh.failedAt.symm.trans eq) nofun
  | some start =>
      obtain ⟨_, placed⟩ := h.ordered start origin
      refine ⟨start, rfl, ?_⟩
      unfold World.Placed at placed
      cases phase : w.phase with
      | handling _ | reporting _ | reading | pausing => simp [phase, eq] at placed
      | lastWords | done _ =>
          rw [phase] at placed
          exact placed index eq

theorem handled_past (h : Sound ctx options w) {start : Nat} (origin : w.origin = some start)
    {t : Token} (eq : w.handled = some t) : t.past ≤ start + w.count := by
  rw [h.handled, World.handledEvents, origin] at eq
  obtain ⟨index, last, rfl⟩ := Option.map_eq_some_iff.mp eq
  have mem := List.mem_of_getLast? last
  exact (List.mem_range'_1.mp mem).2

end Sound
end Run

/-- What is handed over carries the token of an event whose handler began, and is of a type that
was asked for. -/
theorem run_asked (ctx : Collection V) (options : ChangeOptions Token) (log : List (Event V))
    (acts : List (Act V)) : ∀ change ∈ (run ctx options log acts).delivered,
      (∃ index ∈ (run ctx options log acts).begunEvents, change.resumeToken = .event index) ∧
        change.type ∈ options.events.getD all := by
  intro change mem
  have sound : Sound ctx options (run ctx options log acts) := run_sound log acts
  rw [sound.delivered.1] at mem
  obtain ⟨index, begun, is⟩ := List.mem_filterMap.mp mem
  obtain ⟨event, -, is⟩ := Option.bind_eq_some_iff.mp is
  obtain ⟨token, asked⟩ := Collection.toChange_asked is
  exact ⟨⟨index, begun, token⟩, asked⟩

/-- A subscription delivers every change once, in order, over every run: any events, reads
that work, come back empty or fail and reopen, handlers that resolve or throw, and calls of
`close` from anywhere. The changes handed over are the images of a run of events without
gaps, from a start that never moves; `resumeToken` is the last event handled; `position` is
at or before every event not handled; an error of the handler that ends the subscription
leaves both before its event; and once a `close` from outside has resolved no handler runs, and
nothing is handed over any more. -/
theorem run_delivers (ctx : Collection V) (options : ChangeOptions Token)
    (log : List (Event V)) (acts : List (Act V)) :
    let w := run ctx options log acts
    (w.delivered = w.begunEvents.filterMap (image ctx options w.log) ∧
      ∀ index ∈ w.begunEvents, index < w.log.length) ∧
    w.handled = w.handledEvents.getLast?.map .event ∧
    (∀ p, w.position = some p → ∃ start, w.origin = some start ∧
      ∀ index, start ≤ index → index ∉ w.handledEvents → p.past ≤ index) ∧
    (∀ index, w.failedAt = some index → index ∉ w.handledEvents ∧
      (∀ t, w.handled = some t → t.past ≤ index) ∧ ∀ p, w.position = some p → p.past ≤ index) ∧
    ∀ more, let later := run ctx options log (acts ++ more)
      (w.closeResolved → (∃ outcome, w.phase = .done outcome) ∧ later.delivered = w.delivered) ∧
      ∀ start, w.origin = some start → later.origin = some start ∧
        match options.startAfter with
        | some token => start = token.past
        | none => log.length ≤ start := by
  intro w
  have sound : Sound ctx options w := run_sound log acts
  refine ⟨?_, ?_, ?_, ?_, fun more => ⟨?_, ?_⟩⟩
  · exact sound.delivered
  · exact sound.handled
  · intro p eq
    obtain ⟨start, origin, _, past⟩ := sound.position eq
    refine ⟨start, origin, fun index from_ unhandled => ?_⟩
    exact Nat.le_trans past (handledEvents_past origin index from_ unhandled)
  · intro index eq
    obtain ⟨start, origin, rfl⟩ := sound.failed eq
    refine ⟨?_, fun t eq => sound.handled_past origin eq, fun p eq => ?_⟩
    · simp [World.handledEvents, origin, List.mem_range'_1]
    · obtain ⟨s, origin', _, past⟩ := sound.position eq
      cases origin.symm.trans origin'
      exact past
  · intro resolved
    obtain ⟨outcome, phase⟩ := run_settles log acts resolved
    rw [run_append]
    exact ⟨⟨outcome, phase⟩, foldl_over phase more⟩
  · intro start origin
    refine ⟨?_, run_start log acts origin⟩
    rw [run_append]
    exact foldl_origin origin more

end NxgtData.Changes
