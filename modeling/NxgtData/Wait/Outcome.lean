import NxgtData.Queue.Fencing

/-!
A job's final outcome, as a message on the queue's channel tells it and as its hash
does. `publish` splices the stored JSON texts into the message, so a message is
read by reading them. The two agree: the outcome a hash holds is the one the last
message about the job told.
-/
namespace NxgtData.Wait
open Queue

variable {J V : Type}

/-- JSON, with the strings among an object's fields. What `JSON.stringify` wrote is
read back as a value that it writes the same. -/
structure Json (J : Type) where
  stringify : J → Option String
  parse : String → Option J
  text : J → String → Option String
  stable : ∀ {v t}, stringify v = some t → ∃ v', parse t = some v' ∧ stringify v' = some t

structure Failure where
  name : String
  message : String
  deriving DecidableEq, Repr

inductive Outcome where
  | completed (result : Option String)
  | failed (error : Option Failure)
  | canceled
  | absent
  deriving DecidableEq, Repr

variable (json : Json J)

def parseStoredError (stored : Option String) : Option Failure :=
  stored.bind fun text => (json.parse text).bind fun error =>
    match json.text error "name", json.text error "message" with
    | some name, some message => some ⟨name, message⟩
    | _, _ => none

/-- The outcome a message tells for `id`, if it is about `id` and reads as JSON. -/
def fromMessage (id : String) (event : Event) : Option Outcome :=
  if event.id ≠ id then none
  else
    match event with
    | .completed _ result =>
        if result = "" then some (.completed none)
        else (json.parse result).map fun v => .completed (json.stringify v)
    | .failed _ error =>
        if error = "" then some (.failed none)
        else (json.parse error).map fun v => .failed (parseStoredError json (json.stringify v))
    | .canceled _ _ => some .canceled

theorem fromMessage_ne_absent (id : String) (e : Event) :
    fromMessage json id e ≠ some .absent := by
  unfold fromMessage
  split
  next => exact nofun
  next =>
    split
    next => split <;> simp
    next => split <;> simp
    next => exact nofun

/-- The outcome the stored state already tells, `none` while it is not final. -/
def readStored (id : String) (b : Board) : Option Outcome :=
  match b.stateOf id with
  | none => some .absent
  | some .completed => some (.completed (b.hmget id).result)
  | some .failed => some (.failed (parseStoredError json (b.hmget id).error))
  | some _ => none

/-- `decodeResult` under a result schema: its output for a value, or for `undefined`. -/
def decodeResult (schema : Option (Option J → Option V)) (result : Option String) :
    Option (Option V) :=
  match schema, result with
  | none, _ => some none
  | some check, none => (check none).map some
  | some check, some text => (json.parse text).bind fun v => (check (some v)).map some

/-- How `finished` settles by an outcome. -/
inductive Settled (V : Type) where
  | resolved (value : Option V)
  | invalid
  | failed (lastError : Option Failure)
  | canceled
  | notFound
  deriving DecidableEq, Repr

def settleWith (schema : Option (Option J → Option V)) : Outcome → Settled V
  | .completed result =>
      match decodeResult json schema result with
      | some value => .resolved value
      | none => .invalid
  | .failed error => .failed error
  | .canceled => .canceled
  | .absent => .notFound

/-- The message's JSON is one that `JSON.stringify` wrote: a result that
`encodeResult` stored, or an error. -/
def Written : Event → Prop
  | .completed _ result => result = "" ∨ ∃ v, json.stringify v = some result
  | .failed _ error => error ≠ "" ∧ ∃ v, json.stringify v = some error
  | .canceled _ _ => True

/-- The last message about a job. -/
def lastOf (id : String) (events : List Event) : Option Event :=
  (events.filter fun e => e.id = id).getLast?

theorem lastOf_others {id : String} {events ev : List Event} (others : ∀ e ∈ ev, e.id ≠ id) :
    lastOf id (events ++ ev) = lastOf id events := by
  have none : ev.filter (fun e => e.id = id) = [] := by simpa using others
  rw [lastOf, List.filter_append, none, List.append_nil, lastOf]

theorem lastOf_snoc (events : List Event) (e : Event) :
    lastOf e.id (events ++ [e]) = some e := by
  simp [lastOf, List.filter_append]

/-- A finished job's hash holds what the last message about it told, and no other
hash holds a result. -/
structure Tells (last : Option Event) (id : String) (h : JobHash) : Prop where
  unfinished : h.state ≠ some .completed → h.result = none
  completed : h.state = some .completed → ∃ result, last = some (.completed id result) ∧
    h.result = if result ≠ "" then some result else none
  failed : h.state = some .failed → ∃ error, last = some (.failed id error) ∧ h.error = some error

def Told (b : Board) : Prop :=
  ∀ id h, b.job id = some h → Tells (lastOf id b.events) id h

section Told
variable {m : GroupArgs} {b b' : Board} {last : Option Event} {id : String} {h h' : JobHash}

/-- A hash of a job that is not finished tells nothing. -/
theorem Tells.of_result (result : h.result = none) (completed : h.state ≠ some .completed)
    (failed : h.state ≠ some .failed) : Tells last id h :=
  ⟨fun _ => result, fun state => absurd state completed, fun state => absurd state failed⟩

theorem Tells.congr (tells : Tells last id h) (state : h'.state = h.state)
    (result : h'.result = h.result) (error : h'.error = h.error) : Tells last id h' := by
  refine ⟨?_, ?_, ?_⟩
  · rw [state, result]
    exact tells.unfinished
  · rw [state, result]
    exact tells.completed
  · rw [state, error]
    exact tells.failed

theorem Tells.of_failed {error : String} (told : last = some (.failed id error))
    (result : h.result = none) (state : h.state = some .failed) (stored : h.error = some error) :
    Tells last id h := by
  refine ⟨fun _ => result, fun completed => ?_, fun _ => ⟨error, told, stored⟩⟩
  rw [state] at completed
  cases completed

theorem Change.tells {a : Act} {o : Option JobHash} {ev events : List Event}
    (change : Change a o ev (some h)) (ok : ∀ h, o = some h → h.Ok)
    (told : ∀ h, o = some h → Tells (lastOf a.id events) a.id h)
    (created : ∀ id h, a = .create id h → h.result = none) :
    Tells (lastOf a.id (events ++ ev)) a.id h := by
  have running : ∀ {h : JobHash} {token : String}, o = some h → h.token = some token →
      h.state = some .active := by
    rintro h token was holds
    exact (ok h was).2.mp (by simp [holds])
  cases change with
  | create state =>
      refine .of_result (created _ _ rfl) ?_ ?_
      all_goals rcases state with state | state <;> simp [state]
  | debounce data runAt state =>
      refine .of_result ((told _ rfl).unfinished ?_) nofun nofun
      rcases state with state | state <;> simp [state]
  | promote state | reclaim state | start state =>
      exact .of_result ((told _ rfl).unfinished (by simp [state])) nofun nofun
  | lapse finished state =>
      exact .of_failed (lastOf_snoc events (.failed _ lapsedError)) ((told _ rfl).unfinished (by simp [state])) rfl rfl
  | refuse finished state =>
      refine .of_failed (lastOf_snoc events (.failed _ invalidError)) ((told _ rfl).unfinished ?_) rfl rfl
      rcases state with state | state | state <;> simp [state]
  | complete result finished kept holds stored =>
      have none := (told _ rfl).unfinished (by simp [running rfl holds])
      rw [none] at stored
      exact ⟨fun other => absurd rfl other, fun _ => ⟨result, lastOf_snoc events (.completed _ result), stored⟩,
        nofun⟩
  | retryLater error runAt holds | release holds =>
      exact .of_result ((told _ rfl).unfinished (by simp [running rfl holds])) nofun nofun
  | failFinal error finished holds =>
      exact .of_failed (lastOf_snoc events (.failed _ error)) ((told _ rfl).unfinished (by simp [running rfl holds])) rfl rfl
  | retry runAt state =>
      exact .of_result ((told _ rfl).unfinished (by simp [state])) nofun nofun
  | renew | progress | begun | commit | drop =>
      rw [List.append_nil]
      exact (told _ rfl).congr rfl rfl rfl

theorem Told.move {a : Act} (hb : Sane m b) (told : Told b) (move : Move m b a b')
    (created : ∀ id h, a = .create id h → h.result = none) : Told b' := by
  obtain ⟨ev, change, events⟩ := move.change
  intro id h is
  rw [events]
  by_cases own : id = a.id
  · subst own
    rw [is] at change
    exact Change.tells change (fun h was => hb.placed.ok was) (told a.id) created
  · rw [lastOf_others fun e mem eq => own (eq.symm.trans (change.publishes e mem))]
    rw [move.job_of_ne own] at is
    exact told id h is

theorem Told.leads {P : NewJob → Prop} {ms : List Mark} (leads : Leads m (Writes m P) b ms b')
    (hb : Sane m b) (told : Told b) : Told b' := by
  refine (leads.history [] (R := fun _ b => Sane m b ∧ Told b) ?_ ⟨hb, told⟩).2
  intro past b a b' known move new
  refine ⟨known.1.move move, known.2.move known.1 move fun id h eq => ?_⟩
  obtain ⟨j, now, -, -, rfl⟩ := new id h eq
  rfl

/-- The outcome a hash holds is the one the last message about the job told. -/
theorem Told.stored (json : Json J) (told : Told b) {o : Outcome}
    (stored : readStored json id b = some o) (there : o ≠ .absent) :
    ∃ e, lastOf id b.events = some e ∧ (Written json e → fromMessage json id e = some o) := by
  cases was : b.job id with
  | none =>
      simp [readStored, Board.stateOf, was] at stored
      exact absurd stored.symm there
  | some h =>
      have tells := told id h was
      rw [readStored, Board.stateOf_of_job was, Board.hmget_of_job was] at stored
      split at stored
      next => exact absurd (Option.some.inj stored).symm there
      next state =>
        obtain ⟨result, last, kept⟩ := tells.completed state
        refine ⟨_, last, fun written => ?_⟩
        rw [← stored, kept]
        rcases written with rfl | ⟨v, wrote⟩
        · simp [fromMessage, Event.id]
        · obtain ⟨v', parsed, again⟩ := json.stable wrote
          by_cases empty : result = ""
          · simp [fromMessage, Event.id, empty]
          · simp [fromMessage, Event.id, empty, parsed, again]
      next state =>
        obtain ⟨error, last, kept⟩ := tells.failed state
        refine ⟨_, last, fun written => ?_⟩
        obtain ⟨some, v, wrote⟩ := written
        obtain ⟨v', parsed, again⟩ := json.stable wrote
        rw [← stored, kept]
        simp [fromMessage, Event.id, some, parsed, again]
      next => cases stored

end Told
end NxgtData.Wait
