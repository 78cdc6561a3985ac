import NxgtData.Lib.Machine
import NxgtData.Queue.Settle

/-!
What happens to one job, as a relation between boards. A `Change` says what an
act does to the job's hash and publishes; a `Move` carries it out on the board,
taking the job out of the zset its state names and into the one its new state
names, with the group keys following. The scripts are shown to be paths of
moves; what holds of them is proved on the moves.
-/
namespace NxgtData.Queue
open Decimal

inductive Act where
  | create (id : String) (h : JobHash)
  | debounce (id : String)
  | promote (id : String)
  | reclaim (id : String)
  | refuse (id : String)
  | start (id token : String)
  | complete (id token : String)
  | fail (id token : String)
  | release (id : String)
  | renew (id token : String)
  | progress (id token : String)
  | begun (id token name : String)
  | commit (id token name json : String)
  | cancel (id : String)
  | retry (id : String) (fresh : Bool)
  | remove (id : String)
  | trim (id : String)
  /-- A group that is full or empty leaves the round-robin list. -/
  | drop (g : String)

namespace Act

/-- The job an act is about; a `drop` is about none. -/
def id : Act → String
  | create id _ | debounce id | promote id | reclaim id | refuse id | start id _
  | complete id _ | fail id _ | release id | renew id _ | progress id _ | begun id _ _
  | commit id _ _ _ | cancel id | retry id _ | remove id | trim id => id
  | drop _ => ""

def isStart : Act → Bool
  | start _ _ => true
  | _ => false

end Act

/-- What an act makes of a job's hash, and what it publishes. -/
inductive Change : Act → Option JobHash → List Event → Option JobHash → Prop where
  | create {id h} (state : h.state = some .waiting ∨ h.state = some .delayed)
      (token : h.token = none) (attempt : h.attempt = some (toString 0))
      (step : h.step = fun _ => none) :
      Change (.create id h) none [] (some h)
  | debounce {id h} (data : String) (runAt : Option String)
      (state : h.state = some .waiting ∨ h.state = some .delayed)
      (attempt : h.attempt = some (toString 0)) :
      Change (.debounce id) (some h) [] (some { h with data := some data, state := some .delayed, runAt })
  | promote {id h} (state : h.state = some .delayed) (trusted : sound h = true) :
      Change (.promote id) (some h) [] (some { h with state := some .waiting })
  | reclaim {id h} (state : h.state = some .active) (trusted : sound h = true)
      (left : number h.attempt < number h.attempts) :
      Change (.reclaim id) (some h) [] (some { h with token := none, state := some .waiting })
  | lapse {id h} (finished : Option String) (state : h.state = some .active) (trusted : sound h = true)
      (spent : ¬ number h.attempt < number h.attempts) :
      Change (.reclaim id) (some h) [.failed id lapsedError]
        (some { h with token := none, state := some .failed, error := some lapsedError, finished })
  | refuse {id h} (finished : Option String)
      (state : h.state = some .waiting ∨ h.state = some .delayed ∨ h.state = some .active)
      (untrusted : sound h = false) :
      Change (.refuse id) (some h) [.failed id invalidError]
        (some { h with state := some .failed, error := some invalidError, finished, token := none })
  | start {id token h} (state : h.state = some .waiting) (trusted : sound h = true) :
      Change (.start id token) (some h) [] (some { h with
        state := some .active
        token := some token
        attempt := some (toString (number h.attempt + 1)) })
  | complete {id token h} (result : String) (finished kept : Option String) (holds : h.token = some token)
      (stored : kept = if result ≠ "" then some result else h.result) :
      Change (.complete id token) (some h) [.completed id result]
        (some { h with state := some .completed, finished, result := kept, token := none })
  | vanish {id token result h} (holds : h.token = some token) :
      Change (.complete id token) (some h) [.completed id result] none
  | retryLater {id token h} (error runAt : Option String) (holds : h.token = some token)
      (trusted : sound { h with timeout := none, group := none } = true)
      (left : number h.attempt < number h.attempts) :
      Change (.fail id token) (some h) []
        (some { h with token := none, state := some .delayed, error, runAt })
  | failFinal {id token h} (error : String) (finished : Option String) (holds : h.token = some token) :
      Change (.fail id token) (some h) [.failed id error]
        (some { h with token := none, state := some .failed, error := some error, finished })
  | release {id token h} (holds : h.token = some token) (trusted : sound h = true)
      (started : number h.attempt ≥ 1) :
      Change (.release id) (some h) [] (some { h with
        state := some .waiting
        attempt := some (toString (number h.attempt - 1))
        token := none })
  | renew {id token h} (holds : h.token = some token) :
      Change (.renew id token) (some h) [] (some h)
  | progress {id token h value} (holds : h.token = some token) :
      Change (.progress id token) (some h) [] (some { h with progress := value })
  | begun {id token name h} (holds : h.token = some token) (absent : h.step name = none) :
      Change (.begun id token name) (some h) [] (some h)
  | commit {id token name json h} (holds : h.token = some token) :
      Change (.commit id token name json) (some h) []
        (some { h with step := Function.update h.step name (some json) })
  | cancel {id h token}
      (state : h.state = some .waiting ∨ h.state = some .delayed ∨ h.state = some .active) :
      Change (.cancel id) (some h) [.canceled id token] none
  | retry {id fresh h} (runAt : Option String) (state : h.state = some .failed) (trusted : sound h = true) :
      Change (.retry id fresh) (some h) [] (some { h with
        state := some .waiting
        attempt := some (toString 0)
        retried := some "1"
        runAt
        error := none
        finished := none
        token := none
        step := if fresh then fun _ => none else h.step })
  | remove {id o} (idle : ∀ h, o = some h → h.state ≠ some .active) :
      Change (.remove id) o [] none
  | trim {id h} (state : h.state = some .completed ∨ h.state = some .failed) :
      Change (.trim id) (some h) [] none
  | drop {g o} : Change (.drop g) o [] o

namespace Board
variable (m : GroupArgs)

def put (id : String) (h : Option JobHash) (b : Board) : Board :=
  { b with job := Function.update b.job id h }

def announce (events : List Event) (b : Board) : Board := { b with events := b.events ++ events }

/-- The job leaves the zset its state names. -/
def leave (id : String) (b : Board) : Board :=
  match b.stateOf id with
  | none => b
  | some .waiting => b.readyRem m id (b.groupOf id)
  | some .delayed => { b with delayed := b.delayed.rem id }
  | some .active => (b.activeRem m id (b.groupOf id)).2
  | some .completed => { b with completed := b.completed.rem id }
  | some .failed => { b with failed := b.failed.rem id }

/-- The job enters the zset its state names. -/
def enter (id g : String) (score : Nat) (b : Board) : Board :=
  match b.stateOf id with
  | none => b
  | some .waiting => (b.readyAdd m id score g).2
  | some .delayed => { b with delayed := b.delayed.add score id }
  | some .active =>
      { b with active := b.active.add score id, groups := b.groups.slotTaken m g }
  | some .completed => { b with completed := b.completed.add score id }
  | some .failed => { b with failed := b.failed.add score id }

/-- The job's hash becomes `h`, and the job goes where its new state says. -/
def shift (id g : String) (h : Option JobHash) (score : Nat) (events : List Event) (b : Board) :
    Board :=
  (((b.leave m id).put id h).enter m id g score).announce events

end Board

/-- The group a hash names, for a hash that may be missing. -/
def hashGroup (h : Option JobHash) : String := (h.getD {}).groupName

inductive Move (m : GroupArgs) : Board → Act → Board → Prop where
  | shift {b a events h} (score : Nat) (change : Change a (b.job a.id) events h)
      (ungrouped : a.isStart → m.grouped = false)
      (idle : h.bind JobHash.state = some .active → b.stateOf a.id ≠ some .active) :
      Move m b a (b.shift m a.id (hashGroup h) h score events)
  /-- One turn of `pop_groups` that serves the head of the list. -/
  | serve {b a events h g rest k} (score : Nat) (grouped : m.grouped = true)
      (taken : b.groups.rrTake = some (g, k)) (list : b.groups.list = g :: rest)
      (slot : k.hasSlot m g = true) (head : a.id ∈ b.groups.ready g)
      (change : Change a (b.job a.id) events h)
      (kind : a.isStart ∨ ∃ id, a = .refuse id) :
      Move m b a (({ b with groups := k }.shift m a.id (hashGroup h) h score events).requeue m g)
  | drop {b g k} (grouped : m.grouped = true) (taken : b.groups.rrTake = some (g, k))
      (idle : k.hasSlot m g = false ∨ ∀ id, id ∉ k.ready g) :
      Move m b (.drop g) { b with groups := k }
  /-- The hash alone changes, or only the lease's end does. -/
  | edit {b a h h'} (change : Change a (b.job a.id) [] (some h')) (was : b.job a.id = some h)
      (same : h'.state = h.state ∧ h'.token = h.token ∧ h'.group = h.group) :
      Move m b a (b.put a.id (some h'))
  | touch {b id token h} (score : Nat) (was : b.job id = some h) (holds : h.token = some token)
      (mem : id ∈ b.active) :
      Move m b (.renew id token) { b with active := b.active.add score id }

/-- The zsets agree with the hashes: an id is in exactly the zset its hash's
state names, every hash has a state, and a token exactly while it is active. -/
structure Placed (b : Board) : Prop where
  mem_place : ∀ id s, id ∈ b.place s ↔ b.stateOf id = some s
  state_some : ∀ id h, b.job id = some h → h.state.isSome
  token_iff : ∀ id h, b.job id = some h → (h.token.isSome ↔ h.state = some .active)

namespace Board
variable {m : GroupArgs}

@[simp] theorem put_job (b : Board) (id : String) (h : Option JobHash) :
    (b.put id h).job = Function.update b.job id h := rfl

@[simp] theorem put_place (b : Board) (id : String) (h : Option JobHash) (s : JobState) :
    (b.put id h).place s = b.place s := by cases s <;> rfl

@[simp] theorem put_groups (b : Board) (id : String) (h : Option JobHash) :
    (b.put id h).groups = b.groups := rfl

theorem put_put (b : Board) (id : String) (h h' : Option JobHash) :
    (b.put id h).put id h' = b.put id h' := by
  simp only [put, Function.update_idem]

@[simp] theorem stateOf_put (b : Board) (id : String) (h : Option JobHash) :
    (b.put id h).stateOf id = h.bind JobHash.state := by
  simp [stateOf]

theorem stateOf_put_ne {b : Board} {id id' : String} {h : Option JobHash} (ne : id' ≠ id) :
    (b.put id h).stateOf id' = b.stateOf id' := by
  simp [stateOf, ne]

@[simp] theorem readyAdd_job (b : Board) (id g : String) (s : Nat) :
    (b.readyAdd m id s g).2.job = b.job := rfl

@[simp] theorem activeRem_job (b : Board) (id g : String) :
    (b.activeRem m id g).2.job = b.job := by
  unfold activeRem; split <;> rfl

@[simp] theorem leave_job (b : Board) (id : String) : (b.leave m id).job = b.job := by
  unfold leave; split <;> simp [readyRem]

@[simp] theorem enter_job (b : Board) (id g : String) (s : Nat) :
    (b.enter m id g s).job = b.job := by
  unfold enter; split <;> rfl

@[simp] theorem shift_job (b : Board) (id g : String) (h : Option JobHash) (s : Nat)
    (ev : List Event) : (b.shift m id g h s ev).job = Function.update b.job id h := by
  simp [shift, announce]

@[simp] theorem activeRem_events (b : Board) (id g : String) :
    (b.activeRem m id g).2.events = b.events := by
  unfold activeRem; split <;> rfl

@[simp] theorem leave_events (b : Board) (id : String) :
    (b.leave m id).events = b.events := by
  unfold leave; split <;> simp [readyRem]

@[simp] theorem shift_events (b : Board) (id g : String) (h : Option JobHash) (s : Nat)
    (ev : List Event) : (b.shift m id g h s ev).events = b.events ++ ev := by
  have entered : ((b.leave m id).put id h |>.enter m id g s).events = (b.leave m id).events := by
    unfold enter; split <;> rfl
  simp [shift, announce, entered]

theorem hset_of_job {b : Board} {id : String} {h : JobHash} (f : JobHash → JobHash)
    (was : b.job id = some h) : b.hset id f = b.put id (some (f h)) := by
  simp [hset, put, hmget, was]

theorem hdel_of_job {b : Board} {id : String} {h : JobHash} (f : JobHash → JobHash)
    (was : b.job id = some h) : b.hdel id f = b.put id (some (f h)) := by
  simp [hdel, put, was]

theorem hset_job {b : Board} {id : String} {h : JobHash} (was : b.job id = some h)
    (f : JobHash → JobHash) : (b.hset id f).job id = some (f h) := by
  rw [hset_of_job _ was, put_job, Function.update_self]

theorem hdel_job {b : Board} {id : String} {h : JobHash} (was : b.job id = some h)
    (f : JobHash → JobHash) : (b.hdel id f).job id = some (f h) := by
  rw [hdel_of_job _ was, put_job, Function.update_self]

@[simp] theorem hdel_put (b : Board) (id : String) (h : JobHash) (f : JobHash → JobHash) :
    (b.put id (some h)).hdel id f = b.put id (some (f h)) := by
  rw [hdel_of_job f (h := h) (by simp), put_put]

@[simp] theorem hset_put (b : Board) (id : String) (h : JobHash) (f : JobHash → JobHash) :
    (b.put id (some h)).hset id f = b.put id (some (f h)) := by
  rw [hset_of_job f (h := h) (by simp), put_put]

theorem readyRem_put (b : Board) (id id' g : String) (h : Option JobHash) :
    (b.put id h).readyRem m id' g = (b.readyRem m id' g).put id h := rfl

theorem hdel_readyAdd (b : Board) (id g : String) (score : Nat) (f : JobHash → JobHash) :
    (b.readyAdd m id score g).2.hdel id f = ((b.hdel id f).readyAdd m id score g).2 := rfl

@[simp] theorem announce_nil (b : Board) : b.announce [] = b := by simp [announce]

theorem leave_none {b : Board} {id : String} (hs : b.stateOf id = none) : b.leave m id = b := by
  simp only [leave, hs]

theorem leave_waiting {b : Board} {id : String} (hs : b.stateOf id = some .waiting) :
    b.leave m id = b.readyRem m id (b.groupOf id) := by simp only [leave, hs]

theorem leave_delayed {b : Board} {id : String} (hs : b.stateOf id = some .delayed) :
    b.leave m id = { b with delayed := b.delayed.rem id } := by simp only [leave, hs]

theorem leave_active {b : Board} {id : String} (hs : b.stateOf id = some .active) :
    b.leave m id = (b.activeRem m id (b.groupOf id)).2 := by simp only [leave, hs]

theorem leave_completed {b : Board} {id : String} (hs : b.stateOf id = some .completed) :
    b.leave m id = { b with completed := b.completed.rem id } := by simp only [leave, hs]

theorem leave_failed {b : Board} {id : String} (hs : b.stateOf id = some .failed) :
    b.leave m id = { b with failed := b.failed.rem id } := by simp only [leave, hs]

theorem shift_waiting {b : Board} {id g : String} {h : JobHash} {score : Nat} {ev : List Event}
    (hs : h.state = some .waiting) :
    b.shift m id g (some h) score ev =
      ((((b.leave m id).put id (some h)).readyAdd m id score g).2).announce ev := by
  simp only [shift, enter, stateOf_put, Option.bind_some, hs]

theorem shift_delayed {b : Board} {id g : String} {h : JobHash} {score : Nat} {ev : List Event}
    (hs : h.state = some .delayed) :
    b.shift m id g (some h) score ev =
      ({ (b.leave m id).put id (some h) with
        delayed := (b.leave m id).delayed.add score id }).announce ev := by
  simp only [shift, enter, stateOf_put, Option.bind_some, hs]
  rfl

theorem shift_active {b : Board} {id g : String} {h : JobHash} {score : Nat} {ev : List Event}
    (hs : h.state = some .active) :
    b.shift m id g (some h) score ev =
      ({ (b.leave m id).put id (some h) with
        active := (b.leave m id).active.add score id
        groups := (b.leave m id).groups.slotTaken m g }).announce ev := by
  simp only [shift, enter, stateOf_put, Option.bind_some, hs]
  rfl

theorem shift_completed {b : Board} {id g : String} {h : JobHash} {score : Nat} {ev : List Event}
    (hs : h.state = some .completed) :
    b.shift m id g (some h) score ev =
      ({ (b.leave m id).put id (some h) with
        completed := (b.leave m id).completed.add score id }).announce ev := by
  simp only [shift, enter, stateOf_put, Option.bind_some, hs]
  rfl

theorem shift_failed {b : Board} {id g : String} {h : JobHash} {score : Nat} {ev : List Event}
    (hs : h.state = some .failed) :
    b.shift m id g (some h) score ev =
      ({ (b.leave m id).put id (some h) with
        failed := (b.leave m id).failed.add score id }).announce ev := by
  simp only [shift, enter, stateOf_put, Option.bind_some, hs]
  rfl

theorem shift_none {b : Board} {id g : String} {score : Nat} {ev : List Event} :
    b.shift m id g none score ev = ((b.leave m id).put id none).announce ev := by
  simp only [shift, enter, stateOf_put, Option.bind_none]

theorem hmget_of_job {b : Board} {id : String} {h : JobHash} (was : b.job id = some h) :
    b.hmget id = h := by simp [hmget, was]

theorem stateOf_of_job {b : Board} {id : String} {h : JobHash} (was : b.job id = some h) :
    b.stateOf id = h.state := by simp [stateOf, was]

theorem groupOf_of_job {b : Board} {id : String} {h : JobHash} (was : b.job id = some h) :
    b.groupOf id = h.groupName := by simp [groupOf, hmget_of_job was]

end Board

/-- A shift of a job whose hash is known, as a move. -/
theorem Move.of_shift {m : GroupArgs} {b b' : Board} {a : Act} {h : JobHash} {h' : Option JobHash}
    {ev : List Event} (score : Nat) (was : b.job a.id = some h) (change : Change a (some h) ev h')
    (ungrouped : a.isStart → m.grouped = false)
    (idle : h'.bind JobHash.state = some .active → h.state ≠ some .active)
    (eq : b' = b.shift m a.id (hashGroup h') h' score ev) : Move m b a b' := by
  subst eq
  exact .shift score (was ▸ change) ungrouped (by rwa [Board.stateOf_of_job was])

namespace Placed
variable {m : GroupArgs} {b : Board}

theorem job_of_mem (hb : Placed b) {id : String} {s : JobState} (mem : id ∈ b.place s) :
    ∃ h, b.job id = some h ∧ h.state = some s :=
  Option.bind_eq_some_iff.mp ((hb.mem_place id s).mp mem)

theorem place_leave (hb : Placed b) (id : String) (s : JobState) :
    (b.leave m id).place s = if b.stateOf id = some s then (b.place s).rem id else b.place s := by
  have active : b.stateOf id = some .active → id ∈ b.active := (hb.mem_place id .active).mpr
  cases hs : b.stateOf id with
  | none => simp [Board.leave, hs]
  | some t =>
      cases t with
      | active =>
          have mem := active hs
          cases s <;> simp [Board.leave, hs, Board.place, Board.activeRem, mem]
      | waiting | delayed | completed | failed =>
          cases s <;> simp [Board.leave, hs, Board.place, Board.readyRem]

/-- A job leaves the only zset it is in. -/
theorem mem_leave (hb : Placed b) (id id' : String) (s : JobState) :
    id' ∈ (b.leave m id).place s ↔ id' ∈ b.place s ∧ id' ≠ id := by
  rw [hb.place_leave]
  split
  next => exact SortedSet.mem_rem
  next ne =>
    refine ⟨fun mem => ⟨mem, ?_⟩, And.left⟩
    rintro rfl
    exact ne ((hb.mem_place id' s).mp mem)

end Placed

theorem Board.place_enter (b : Board) (m : GroupArgs) (id g : String) (score : Nat)
    (s : JobState) :
    (b.enter m id g score).place s =
      if b.stateOf id = some s then (b.place s).add score id else b.place s := by
  cases hs : b.stateOf id with
  | none => simp [enter, hs]
  | some t => cases t <;> cases s <;> simp [enter, hs, place, readyAdd]

theorem Board.mem_enter (b : Board) (m : GroupArgs) (id g id' : String) (score : Nat)
    (s : JobState) :
    id' ∈ (b.enter m id g score).place s ↔
      id' ∈ b.place s ∨ id' = id ∧ b.stateOf id = some s := by
  rw [place_enter]
  split
  next eq => rw [SortedSet.mem_add]; simp [eq, or_comm]
  next ne => simp [ne]

end NxgtData.Queue
