import Mathlib.Data.List.Induction
import NxgtData.Changes.Subscription

/-!
What a subscription delivers. From where it started, the events it has begun are a run
without gaps, and each of its tokens is at or before the first event not yet handled.
-/
namespace NxgtData.Changes

variable {V : Type}

namespace World

/-- The events whose delivery was begun: those handled, and one that a handler still
runs on or has ended the subscription with. -/
def begun (w : World V) : Nat :=
  match w.phase with
  | .handling _ | .reporting _ => w.count + 1
  | _ => if w.failedAt.isSome then w.count + 1 else w.count

/-- The state of the loop, for a subscription that started at an event. -/
def Placed (w : World V) (start : Nat) : Prop :=
  match w.phase with
  | .handling index | .reporting index =>
      index = start + w.count ∧ w.failedAt = none ∧
        w.stream.cursor = some (index + 1) ∧ w.stream.heard
  | .reading =>
      w.failedAt = none ∧ w.stream.cursor = some (start + w.count) ∧
        (w.stream.heard = false → w.token.isSome ∧ w.stream.startAfter.isSome)
  | .pausing => w.failedAt = none ∧ w.token.isSome
  | .lastWords | .done _ => ∀ index, w.failedAt = some index → index = start + w.count

/-- Nothing was heard yet. -/
structure Fresh (w : World V) : Prop where
  count : w.count = 0
  delivered : w.delivered = []
  token : w.token = none
  handled : w.handled = none
  position : w.position = none
  failedAt : w.failedAt = none
  phase : ∀ index, w.phase ≠ .handling index ∧ w.phase ≠ .reporting index

/-- The subscription started at an event, and has delivered in order from there. -/
structure Ordered (ctx : Collection V) (options : ChangeOptions Token) (start : Nat)
    (w : World V) : Prop where
  delivered : w.delivered = (List.range' start w.begun).filterMap (image ctx options w.log)
  bound : ∀ index ∈ List.range' start w.begun, index < w.log.length
  handled : w.handled = (List.range' start w.count).getLast?.map .event
  token : ∀ t, w.token = some t → t.past = start + w.count
  position : ∀ p, w.position = some p → p.past ≤ start + w.count

end World

/-- A subscription has heard nothing, from a stream opened from now, or is in order. -/
structure Sound (ctx : Collection V) (options : ChangeOptions Token) (w : World V) : Prop where
  fresh : w.origin = none → w.Fresh ∧ w.stream.startAfter = none ∧ w.stream.heard = false
  ordered : ∀ start, w.origin = some start → w.Ordered ctx options start ∧ w.Placed start

section Ordered
open World
variable {ctx : Collection V} {options : ChangeOptions Token} {w w' : World V} {start : Nat}

theorem begun_of_idle (phase : ∀ index, w.phase ≠ .handling index ∧ w.phase ≠ .reporting index)
    (failedAt : w.failedAt = none) : w.begun = w.count := by
  unfold begun
  split
  next index eq => exact absurd eq (phase index).1
  next index eq => exact absurd eq (phase index).2
  · simp [failedAt]

theorem begun_of_reading (phase : w.phase = .reading) (failedAt : w.failedAt = none) :
    w.begun = w.count :=
  begun_of_idle (fun index => by simp [phase]) failedAt

/-- A fresh subscription is in order from wherever its stream is. -/
theorem World.Fresh.ordered (h : w.Fresh) (start : Nat) : w.Ordered ctx options start where
  delivered := by rw [begun_of_idle h.phase h.failedAt, h.count, h.delivered]; rfl
  bound := by rw [begun_of_idle h.phase h.failedAt, h.count]; exact nofun
  handled := by rw [h.handled, h.count]; rfl
  token t eq := by rw [h.token] at eq; cases eq
  position p eq := by rw [h.position] at eq; cases eq

/-- What moves the loop on with the same events behind it. -/
theorem World.Ordered.move (h : w.Ordered ctx options start)
    (log : w'.log = w.log) (delivered : w'.delivered = w.delivered) (count : w'.count = w.count)
    (begun : w'.begun = w.begun) (handled : w'.handled = w.handled)
    (token : ∀ t, w'.token = some t → t.past = start + w.count)
    (position : ∀ p, w'.position = some p → p.past ≤ start + w.count) :
    w'.Ordered ctx options start where
  delivered := by rw [delivered, begun, log, h.delivered]
  bound := by rw [begun, log]; exact h.bound
  handled := by rw [handled, count, h.handled]
  token := by rw [count]; exact token
  position := by rw [count]; exact position

/-- The server's events only grow. -/
theorem World.Ordered.emit (h : w.Ordered ctx options start) (event : Event V) :
    World.Ordered ctx options start { w with log := w.log ++ [event] } where
  delivered := by
    refine h.delivered.trans (List.filterMap_congr fun index mem => ?_)
    simp only [image, List.getElem?_append_left (h.bound index mem)]
  bound index mem := by
    have := h.bound index mem
    rw [List.length_append]
    omega
  handled := h.handled
  token := h.token
  position := h.position

/-- What a sound subscription is once nothing is being handled any more. -/
theorem sound_of_idle (origin : w.origin = some start) (ordered : w.Ordered ctx options start)
    (placed : w.Placed start) : Sound ctx options w where
  fresh none := by rw [origin] at none; cases none
  ordered s eq := by
    rw [origin] at eq
    cases eq
    exact ⟨ordered, placed⟩

theorem sound_finish (ordered : w.Ordered ctx options start) (origin : w.origin = some start)
    (phase : w.phase = .reading ∨ w.phase = .pausing) (failedAt : w.failedAt = none)
    (outcome : Closed) : Sound ctx options (w.finish outcome) := by
  have idle : ∀ index, w.phase ≠ .handling index ∧ w.phase ≠ .reporting index := by
    intro index
    cases phase with
    | inl eq | inr eq => simp [eq]
  have begun : (w.finish outcome).begun = w.begun := by
    rw [begun_of_idle idle failedAt]
    exact begun_of_idle (fun _ => ⟨nofun, nofun⟩) failedAt
  refine sound_of_idle origin ?_ fun index eq => absurd (failedAt.symm.trans eq) nofun
  exact ordered.move rfl rfl rfl begun rfl ordered.token ordered.position

theorem sound_of_fresh (fresh : w.Fresh) (origin : w.origin = none)
    (opened : w.stream.startAfter = none ∧ w.stream.heard = false) : Sound ctx options w where
  fresh _ := ⟨fresh, opened⟩
  ordered _ eq := absurd (origin.symm.trans eq) nofun

/-- A subscription that gave up is idle, but for the event whose handler made it. -/
theorem giveUp_left (onError told : Bool) :
    (w.giveUp onError told).phase = .done .rejected ∨
      (w.giveUp onError told).phase = .lastWords := by
  unfold World.giveUp
  dsimp only
  split
  · exact .inl rfl
  · exact .inr rfl

theorem sound_giveUp (origin : w.origin = some start) (ordered : w.Ordered ctx options start)
    (begun : w.begun = if w.failedAt.isSome then w.count + 1 else w.count)
    (failedAt : ∀ index, w.failedAt = some index → index = start + w.count)
    (onError told : Bool) : Sound ctx options (w.giveUp onError told) := by
  have left := giveUp_left (w := w) onError told
  have same : (w.giveUp onError told).begun = w.begun := by
    rw [begun, World.begun]
    cases left with
    | inl eq | inr eq => rw [eq]; rfl
  refine sound_of_idle origin ?_ ?_
  · exact ordered.move rfl rfl rfl same rfl ordered.token ordered.position
  · unfold Placed
    cases left with
    | inl eq | inr eq => rw [eq]; exact failedAt

theorem sound_readOn (h : Sound ctx options w) (origin : w.origin = some start)
    (phase : w.phase = .reading) : Sound ctx options w.readOn := by
  obtain ⟨ordered, placed⟩ := h.ordered start origin
  unfold World.readOn
  split
  · simp only [Placed, phase] at placed
    exact sound_finish ordered origin (.inl phase) placed.1 .closed
  · rw [← phase]
    exact h

/-- An event is handled: the loop goes on behind it. -/
theorem sound_eventHandled (origin : w.origin = some start)
    (delivered : w.delivered =
      (List.range' start (w.count + 1)).filterMap (image ctx options w.log))
    (bound : ∀ index ∈ List.range' start (w.count + 1), index < w.log.length)
    (failedAt : w.failedAt = none) (cursor : w.stream.cursor = some (start + w.count + 1))
    (heard : w.stream.heard) : Sound ctx options (w.eventHandled (start + w.count)) := by
  have past : Token.past (.event (start + w.count)) = start + (w.count + 1) := by
    simp [Token.past, Nat.add_assoc]
  let token := some (Token.event (start + w.count))
  let next : World V := { w with
    handled := token, token, position := token, count := w.count + 1, phase := .reading }
  have begun : next.begun = w.count + 1 := begun_of_reading rfl failedAt
  have ordered : next.Ordered ctx options start := {
    delivered := by rw [begun]; exact delivered
    bound := by rw [begun]; exact bound
    handled := by simp [next, token, List.range'_concat]
    token := fun t eq => by cases eq; exact past
    position := fun p eq => by cases eq; exact Nat.le_of_eq past }
  have placed : next.Placed start :=
    ⟨failedAt, cursor, fun deaf => absurd (heard.symm.trans deaf) nofun⟩
  have same : w.eventHandled (start + w.count) = next.readOn := rfl
  rw [same]
  exact sound_readOn (sound_of_idle origin ordered placed) origin rfl

end Ordered

namespace Sound
open World
variable {ctx : Collection V} {options : ChangeOptions Token} {w w' : World V}

/-- What leaves the loop where it is. -/
theorem same (h : Sound ctx options w) (log : w'.log = w.log)
    (delivered : w'.delivered = w.delivered) (count : w'.count = w.count)
    (phase : w'.phase = w.phase) (failedAt : w'.failedAt = w.failedAt)
    (handled : w'.handled = w.handled) (token : w'.token = w.token)
    (position : w'.position = w.position) (stream : w'.stream = w.stream)
    (origin : w'.origin = w.origin) : Sound ctx options w' where
  fresh none := by
    rw [origin] at none
    obtain ⟨fresh, opened⟩ := h.fresh none
    rw [stream]
    refine ⟨⟨?_, ?_, ?_, ?_, ?_, ?_, ?_⟩, opened⟩
    · exact count.trans fresh.count
    · exact delivered.trans fresh.delivered
    · exact token.trans fresh.token
    · exact handled.trans fresh.handled
    · exact position.trans fresh.position
    · exact failedAt.trans fresh.failedAt
    · rw [phase]; exact fresh.phase
  ordered start eq := by
    rw [origin] at eq
    obtain ⟨ordered, placed⟩ := h.ordered start eq
    constructor
    · refine ordered.move log delivered count ?_ handled ?_ ?_
      · simp only [begun, phase, count, failedAt]
      · rw [token]; exact ordered.token
      · rw [position]; exact ordered.position
    · simpa only [Placed, phase, count, failedAt, token, stream] using placed

/-- A read that worked tells where the subscription started. -/
theorem answered (h : Sound ctx options w) (phase : w.phase = .reading) {index : Nat}
    (cursor : w.stream.cursor = some index) :
    ∃ start, w.answered.origin = some start ∧ w.answered.Ordered ctx options start ∧
      index = start + w.count ∧ w.failedAt = none := by
  cases origin : w.origin with
  | none =>
      obtain ⟨fresh, _⟩ := h.fresh origin
      have ordered : w.Ordered ctx options index := fresh.ordered index
      refine ⟨index, by simp [World.answered, origin, cursor], ?_, ?_, fresh.failedAt⟩
      · exact ordered.move rfl rfl rfl rfl rfl ordered.token ordered.position
      · rw [fresh.count, Nat.add_zero]
  | some start =>
      obtain ⟨ordered, placed⟩ := h.ordered start origin
      simp only [Placed, phase, cursor, Option.some.injEq] at placed
      refine ⟨start, by simp [World.answered, origin], ?_, placed.2.1, placed.1⟩
      exact ordered.move rfl rfl rfl rfl rfl ordered.token ordered.position

theorem readEvent (h : Sound ctx options w) : Sound ctx options (w.readEvent ctx options) := by
  unfold World.readEvent
  split
  next index phase cursor =>
    split
    · exact h
    next event at_ =>
      obtain ⟨start, origin, ordered, rfl, failedAt⟩ := h.answered phase cursor
      have begun : w.answered.begun = w.count := begun_of_reading phase failedAt
      have inLog : start + w.count < w.log.length := (List.getElem?_eq_some_iff.mp at_).1
      have bound : ∀ index ∈ List.range' start (w.count + 1), index < w.log.length := by
        intro index mem
        simp only [List.mem_range'_1] at mem
        omega
      have delivered := ordered.delivered
      rw [begun] at delivered
      have next : image ctx options w.log (start + w.count) =
          ctx.toChange options (.event (start + w.count)) event := by
        simp [image, at_]
      dsimp only
      split
      · have passed : World.Ordered ctx options start { w.answered with
            stream := { w.stream with cursor := some (start + w.count + 1), heard := true } } :=
          ordered.move rfl rfl rfl rfl rfl ordered.token ordered.position
        exact sound_finish passed origin (.inl phase) failedAt .invalidated
      · split
        next none =>
          refine sound_eventHandled origin ?_ bound failedAt rfl rfl
          refine delivered.trans ?_
          rw [List.range'_1_concat, List.filterMap_append]
          simp [World.answered, next, none]
        next change some =>
          refine sound_of_idle origin ⟨?_, bound, ordered.handled, ordered.token,
            ordered.position⟩ ⟨rfl, failedAt, rfl, rfl⟩
          refine (congrArg (· ++ [change]) delivered).trans ?_
          rw [World.begun, List.range'_1_concat, List.filterMap_append]
          simp [World.answered, next, some]
  · exact h

theorem readNull (h : Sound ctx options w) (token : Option Token) :
    Sound ctx options (w.readNull token) := by
  unfold World.readNull
  split
  next ok =>
    obtain ⟨phase, opened, shows⟩ := ok
    obtain ⟨index, cursor⟩ := Option.isSome_iff_exists.mp opened
    obtain ⟨start, origin, ordered, rfl, failedAt⟩ := h.answered phase cursor
    have position : ∀ p, token.or w.position = some p → p.past ≤ start + w.count := by
      intro p eq
      cases token with
      | none =>
          rw [Option.none_or] at eq
          exact ordered.position p eq
      | some t =>
          have here : w.stream.cursor = some t.past := shows
          rw [cursor, Option.some.injEq] at here
          cases eq
          exact Nat.le_of_eq here.symm
    refine sound_readOn (sound_of_idle origin ?_ ?_) origin phase
    · exact ordered.move rfl rfl rfl rfl rfl ordered.token position
    · simp only [Placed, World.answered, phase]
      exact ⟨failedAt, cursor, nofun⟩
  · exact h

/-- The token a failed read leaves: where the loop is, if anything was heard at all. -/
theorem named (h : Sound ctx options w) (phase : w.phase = .reading) {token : Option Token}
    (shows : w.stream.Shows token) :
    (token = none ∧ w.origin = none) ∨
      ∃ t start, token.or w.token = some t ∧ w.origin.or (token.map Token.past) = some start ∧
        w.Ordered ctx options start ∧ t.past = start + w.count ∧ w.failedAt = none := by
  cases origin : w.origin with
  | none =>
      obtain ⟨fresh, _⟩ := h.fresh origin
      cases token with
      | none => exact .inl ⟨rfl, rfl⟩
      | some t =>
          refine .inr ⟨t, t.past, rfl, rfl, fresh.ordered _, ?_, fresh.failedAt⟩
          rw [fresh.count, Nat.add_zero]
  | some start =>
      obtain ⟨ordered, placed⟩ := h.ordered start origin
      simp only [Placed, phase] at placed
      obtain ⟨failedAt, cursor, deaf⟩ := placed
      cases token with
      | none =>
          obtain ⟨opened, unheard⟩ := shows
          rw [opened] at deaf
          exact absurd (deaf unheard).2 nofun
      | some t =>
          have here : w.stream.cursor = some t.past := shows
          rw [cursor, Option.some.injEq] at here
          exact .inr ⟨t, start, rfl, rfl, ordered, here.symm, failedAt⟩

theorem closed (h : Sound ctx options w) (phase : w.phase = .reading ∨ w.phase = .pausing)
    (outcome : Closed) : Sound ctx options (w.finish outcome) := by
  cases origin : w.origin with
  | none =>
      obtain ⟨fresh, opened⟩ := h.fresh origin
      refine ⟨fun _ => ⟨?_, opened⟩, fun start eq => ?_⟩
      · exact { fresh with phase := fun _ => ⟨nofun, nofun⟩ }
      · exact absurd (origin.symm.trans eq) nofun
  | some start =>
      obtain ⟨ordered, placed⟩ := h.ordered start origin
      refine sound_finish ordered origin phase ?_ outcome
      cases phase with
      | inl eq | inr eq =>
          simp only [Placed, eq] at placed
          exact placed.1

theorem readFails (h : Sound ctx options w) (error : StreamError) (token : Option Token) :
    Sound ctx options (w.readFails options error token) := by
  unfold World.readFails
  split
  next ok =>
    obtain ⟨phase, shows⟩ := ok
    split
    · exact h.closed (.inl phase) .closed
    · cases h.named phase shows with
      | inl unheard =>
          obtain ⟨rfl, origin⟩ := unheard
          obtain ⟨fresh, opened⟩ := h.fresh origin
          dsimp only
          split
          · refine sound_of_fresh { fresh with phase := fun index => ?_ } ?_ opened
            · cases giveUp_left _ _ with
              | inl eq | inr eq => rw [eq]; exact ⟨nofun, nofun⟩
            · simpa [World.giveUp] using origin
          · refine sound_of_fresh { fresh with phase := fun _ => ⟨nofun, nofun⟩ } ?_ opened
            simpa using origin
      | inr heard =>
          obtain ⟨t, start, held, origin, ordered, past, failedAt⟩ := heard
          have token_ : ∀ s, token.or w.token = some s → s.past = start + w.count := by
            intro s eq
            rw [held] at eq
            cases eq
            exact past
          have begun := begun_of_reading phase failedAt
          dsimp only
          split
          · refine sound_giveUp origin ?_ ?_ (fun index eq => ?_) _ _
            · exact ordered.move rfl rfl rfl rfl rfl token_ ordered.position
            · rw [failedAt]
              exact begun_of_reading phase rfl
            · exact absurd (failedAt.symm.trans eq) nofun
          · refine sound_of_idle origin ?_ ⟨failedAt, by simp [held]⟩
            refine ordered.move rfl rfl rfl ?_ rfl token_ ordered.position
            rw [begun]
            exact begun_of_idle (fun _ => ⟨nofun, nofun⟩) failedAt
  · exact h

theorem paused (h : Sound ctx options w) (phase : w.phase = .pausing) :
    Sound ctx options w.reopen := by
  unfold World.reopen
  split
  · exact h.closed (.inr phase) .closed
  · cases origin : w.origin with
    | none =>
        obtain ⟨fresh, _⟩ := h.fresh origin
        refine sound_of_fresh { fresh with phase := fun _ => ⟨nofun, nofun⟩ } rfl ?_
        rw [fresh.token]
        exact ⟨rfl, rfl⟩
    | some start =>
        obtain ⟨ordered, placed⟩ := h.ordered start origin
        simp only [Placed, phase] at placed
        obtain ⟨failedAt, held⟩ := placed
        obtain ⟨t, token⟩ := Option.isSome_iff_exists.mp held
        have begun : w.begun = w.count :=
          begun_of_idle (fun index => by simp [phase]) failedAt
        refine sound_of_idle rfl ?_ ⟨failedAt, ?_, fun _ => ?_⟩
        · refine ordered.move rfl rfl rfl ?_ rfl ordered.token ordered.position
          rw [begun]
          exact begun_of_reading rfl failedAt
        · rw [watch, token, Option.map_some, ordered.token t token]
        · exact ⟨held, held⟩

/-- The subscription at an event whose handler or `onError` runs. -/
theorem busy (h : Sound ctx options w) {index : Nat}
    (phase : w.phase = .handling index ∨ w.phase = .reporting index) :
    ∃ start, w.origin = some start ∧ w.Ordered ctx options start ∧ w.begun = w.count + 1 ∧
      index = start + w.count ∧ w.failedAt = none ∧
        w.stream.cursor = some (index + 1) ∧ w.stream.heard := by
  cases origin : w.origin with
  | none =>
      obtain ⟨fresh, _⟩ := h.fresh origin
      cases phase with
      | inl eq => exact absurd eq (fresh.phase index).1
      | inr eq => exact absurd eq (fresh.phase index).2
  | some start =>
      obtain ⟨ordered, placed⟩ := h.ordered start origin
      refine ⟨start, rfl, ordered, ?_, ?_⟩
      · cases phase with
        | inl eq | inr eq => rw [begun, eq]
      · cases phase with
        | inl eq | inr eq => simpa only [Placed, eq] using placed

/-- The handler or `onError` resolved. -/
theorem resolved (h : Sound ctx options w) {index : Nat}
    (phase : w.phase = .handling index ∨ w.phase = .reporting index) :
    Sound ctx options (w.eventHandled index) := by
  obtain ⟨start, origin, ordered, begun, rfl, failedAt, cursor, heard⟩ := h.busy phase
  refine sound_eventHandled origin ?_ ?_ failedAt cursor heard
  · rw [← begun]; exact ordered.delivered
  · rw [← begun]; exact ordered.bound

/-- The handler, or `onError` after it, threw. -/
theorem threw (h : Sound ctx options w) {index : Nat}
    (phase : w.phase = .handling index ∨ w.phase = .reporting index) (onError told : Bool) :
    Sound ctx options ({ w with failedAt := some index }.giveUp onError told) := by
  obtain ⟨start, origin, ordered, begun, rfl, _⟩ := h.busy phase
  let failed : World V := { w with failedAt := some (start + w.count) }
  have same : failed.begun = w.count + 1 := by
    cases phase with
    | inl eq | inr eq => simp [World.begun, failed, eq]
  have ordered : failed.Ordered ctx options start :=
    ordered.move rfl rfl rfl (same.trans begun.symm) rfl ordered.token ordered.position
  refine sound_giveUp (w := failed) origin ordered same (fun index eq => ?_) onError told
  cases eq
  rfl

/-- `onError` was told what ended the subscription. -/
theorem left (h : Sound ctx options w) (phase : w.phase = .lastWords) (outcome : Closed) :
    Sound ctx options { w with phase := .done outcome } := by
  cases origin : w.origin with
  | none =>
      obtain ⟨fresh, opened⟩ := h.fresh origin
      exact sound_of_fresh { fresh with phase := fun _ => ⟨nofun, nofun⟩ } rfl opened
  | some start =>
      obtain ⟨ordered, placed⟩ := h.ordered start origin
      refine sound_of_idle rfl ?_ ?_
      · refine ordered.move rfl rfl rfl ?_ rfl ordered.token ordered.position
        simp only [begun, phase]
      · simpa only [Placed, phase] using placed

/-- The server opens a stream that starts from now. -/
theorem opens (h : Sound ctx options w) (unopened : w.stream.cursor = none) :
    Sound ctx options
      { w with stream := { w.stream with cursor := some w.log.length } } := by
  refine ⟨fun origin => ?_, fun start origin => ?_⟩
  · obtain ⟨fresh, opened⟩ := h.fresh origin
    exact ⟨{ fresh with }, opened⟩
  · obtain ⟨ordered, placed⟩ := h.ordered start origin
    refine ⟨ordered.move rfl rfl rfl rfl rfl ordered.token ordered.position, ?_⟩
    unfold Placed at placed ⊢
    cases phase : w.phase with
    | handling _ | reporting _ | reading => simp [phase, unopened] at placed
    | pausing | lastWords | done _ => simpa only [phase] using placed

theorem step (h : Sound ctx options w) (a : Act V) : Sound ctx options (w.step ctx options a) := by
  cases a with
  | emit event =>
      refine ⟨fun origin => ?_, fun start origin => ?_⟩
      · obtain ⟨fresh, opened⟩ := h.fresh origin
        exact ⟨{ fresh with }, opened⟩
      · obtain ⟨ordered, placed⟩ := h.ordered start origin
        exact ⟨ordered.emit event, placed⟩
  | opens =>
      simp only [World.step]
      split
      next closed => exact h.opens (Option.isNone_iff_eq_none.mp closed)
      · exact h
  | readEvent => exact h.readEvent
  | readNull token => exact h.readNull token
  | readFails error token => exact h.readFails error token
  | paused =>
      simp only [World.step]
      split
      next phase => exact h.paused phase
      · exact h
  | handler ok =>
      simp only [World.step, World.handlerSettles]
      split
      next index phase =>
        split
        · exact h.resolved (.inl phase)
        · split
          · obtain ⟨start, origin, ordered, begun, placed⟩ := h.busy (.inl phase)
            refine sound_of_idle origin ?_ placed
            exact ordered.move rfl rfl rfl begun.symm rfl ordered.token ordered.position
          · exact h.threw (.inl phase) _ _
      · exact h
  | onError ok =>
      simp only [World.step, World.onErrorSettles]
      split
      next index phase =>
        split
        · exact h.resolved (.inr phase)
        · exact h.threw (.inr phase) _ _
      next phase => exact h.left phase _
      · exact h
  | close inside => exact h.same rfl rfl rfl rfl rfl rfl rfl rfl rfl rfl
  | closeResolves =>
      simp only [World.step]
      split
      · split
        · exact h
        · exact h.same rfl rfl rfl rfl rfl rfl rfl rfl rfl rfl
      · exact h

end Sound

section Run
variable {ctx : Collection V} {options : ChangeOptions Token} {w : World V}

theorem sound_subscribe (log : List (Event V)) : Sound ctx options (subscribe options log) := by
  cases startAfter : options.startAfter with
  | none =>
      refine sound_of_fresh ⟨rfl, rfl, startAfter, rfl, rfl, rfl, fun _ => ⟨nofun, nofun⟩⟩ ?_ ?_
      · simp [subscribe, startAfter]
      · simp [subscribe, watch, startAfter]
  | some token =>
      have origin : (subscribe options log : World V).origin = some token.past := by
        simp [subscribe, startAfter]
      refine sound_of_idle origin ⟨rfl, nofun, rfl, fun t eq => ?_, nofun⟩ ⟨rfl, ?_, fun _ => ?_⟩
      · simp only [subscribe, startAfter, Option.some.injEq] at eq
        rw [← eq]
        rfl
      · simp [subscribe, watch, startAfter]
      · simp [subscribe, watch, startAfter]

theorem run_sound (log : List (Event V)) (acts : List (Act V)) :
    Sound ctx options (run ctx options log acts) := by
  induction acts using List.reverseRecOn with
  | nil => exact sound_subscribe log
  | append_singleton acts a ih =>
      rw [run, List.foldl_append]
      exact ih.step a

end Run
end NxgtData.Changes
