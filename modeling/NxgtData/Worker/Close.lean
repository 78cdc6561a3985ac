import NxgtData.Worker.Loop
import NxgtData.Lib.Machine
import NxgtData.Queue.Charges

/-!
Closing a worker starts nothing and loses nothing, as long as no `close` comes
from the user's code while a job of the same reply has yet to reach its handler.
Each job a reply handed over is at every moment held by the worker or has met one
of three ends, once.
-/
namespace NxgtData.Worker
open Queue

variable {accepts : ClaimedJob → Bool} {concurrency : Nat}

/-- The world after the acts. -/
def world (accepts : ClaimedJob → Bool) (concurrency : Nat) (acts : List Act) : World :=
  after (World.step accepts concurrency) acts {}

/-- What happened, in order. -/
def history (accepts : ClaimedJob → Bool) (concurrency : Nat) (acts : List Act) : List Entry :=
  (served (World.step accepts concurrency) acts {}).filterMap Prod.snd

theorem world_snoc (acts : List Act) (a : Act) :
    world accepts concurrency (acts ++ [a]) =
      ((world accepts concurrency acts).step accepts concurrency a).2 := after_append ..

theorem history_snoc (acts : List Act) (a : Act) :
    history accepts concurrency (acts ++ [a]) = history accepts concurrency acts ++
      ((world accepts concurrency acts).step accepts concurrency a).1.toList := by
  have last : [((world accepts concurrency acts).step accepts concurrency a).1].filterMap id =
      ((world accepts concurrency acts).step accepts concurrency a).1.toList := by
    cases ((world accepts concurrency acts).step accepts concurrency a).1 <;> rfl
  rw [history, served_append, List.filterMap_append, ← last]
  rfl

/-! The jobs in a log and in the worker's hands. -/

def Entry.given : Entry → List Handed
  | .handed jobs => jobs
  | _ => []

def Entry.calls : Entry → List Handed
  | .called job => [job]
  | _ => []

def Entry.fails : Entry → List Handed
  | .failed job => [job]
  | _ => []

def Entry.releases : Entry → List Handed
  | .released jobs _ => jobs
  | _ => []

/-- How often the job met an end: a handler, the `FAIL` for its data or a `RELEASE`. -/
def ends (log : List Entry) (h : Handed) : Nat :=
  (log.flatMap Entry.calls).count h + (log.flatMap Entry.fails).count h +
    (log.flatMap Entry.releases).count h

/-- The jobs that have yet to reach their handler on this turn of the thread. -/
def Thread.pending : Thread → List Handed
  | .free | .announcing _ _ => []
  | .starting .handling _ _ rest => rest
  | .starting _ _ job rest => job :: rest

/-- The jobs of the thread that have met no end. -/
def Thread.held : Thread → List Handed
  | .announcing _ jobs => jobs
  | thread => thread.pending

def Slot.held : Slot → List Handed
  | .firing jobs => jobs
  | _ => []

def World.held (w : World) : List Handed := w.thread.held ++ w.slots.flatMap Slot.held

/-- No job whose data the schema takes has yet to reach its handler on this turn
of the thread: the user's code may close the worker. -/
def Clear (accepts : ClaimedJob → Bool) (w : World) (a : Act) : Prop :=
  a = .close → ∀ h ∈ w.thread.pending, accepts h.job = false

instance (w : World) (a : Act) : Decidable (Clear accepts w a) :=
  inferInstanceAs (Decidable (_ → _))

/-- The slot whose code is on the thread. -/
def Thread.slot : Thread → Option Nat
  | .free => none
  | .announcing slot _ | .starting _ slot _ _ => slot

/-- What holds of the world after any acts that meet the condition. -/
structure Fit (accepts : ClaimedJob → Bool) (w : World) : Prop where
  clear : w.isOpen = false → ∀ h ∈ w.thread.pending, accepts h.job = false
  active : ∀ slot h rest, w.thread = .starting .active slot h rest → accepts h.job = true
  turning : ∀ i, w.thread.slot = some i → w.slots[i]? = some .turning
  /-- A slot has asked for one job at most. -/
  single : ∀ s ∈ w.slots, s.held.length ≤ 1
  announced : ∀ i jobs, w.thread = .announcing (some i) jobs → jobs.length ≤ 1

/-- What one act does: no job is lost, and the entry says what became of it. -/
structure Moves (accepts : ClaimedJob → Bool) (w : World) (log : List Entry) (w' : World) :
    Prop where
  kept : ∀ h, ends log h + w'.held.count h = w.held.count h + (log.flatMap Entry.given).count h
  places : List.range w.count ++ (log.flatMap Entry.given).map Handed.place =
    List.range w'.count
  shut : w.isOpen = false ∨ .closed ∈ log → w'.isOpen = false
  called : ∀ h, .called h ∈ log → w.isOpen = true
  failed : ∀ h, .failed h ∈ log → accepts h.job = false
  passed : ∀ jobs args, .released jobs args ∈ log →
    args = jobs.map fun h => (h.job.id, h.job.token)

section Moves
variable {w w' : World} {h : Handed}

theorem sum_set {slots : List Slot} {i : Nat} {s : Slot} (found : slots[i]? = some s)
    (s' : Slot) (f : Slot → Nat) :
    ((slots.set i s').map f).sum + f s = (slots.map f).sum + f s' := by
  induction slots generalizing i with
  | nil => cases found
  | cons first slots ih =>
      cases i with
      | zero =>
          cases found
          simp only [List.set_cons_zero, List.map_cons, List.sum_cons]
          omega
      | succ i =>
          have rest := ih (i := i) found
          simp only [List.set_cons_succ, List.map_cons, List.sum_cons]
          omega

theorem count_set {slots : List Slot} {i : Nat} {s : Slot} (found : slots[i]? = some s)
    (s' : Slot) (h : Handed) :
    ((slots.set i s').flatMap Slot.held).count h + s.held.count h =
      (slots.flatMap Slot.held).count h + s'.held.count h := by
  rw [List.count_flatMap, List.count_flatMap]
  exact sum_set found s' fun s => s.held.count h

/-- A slot that holds no job goes on as one that may. -/
theorem held_put (slot : Option Nat) (turning : ∀ i, slot = some i → w.slots[i]? = some .turning)
    (s : Slot) (h : Handed) :
    ((w.put slot s).slots.flatMap Slot.held).count h =
      (w.slots.flatMap Slot.held).count h + s.held.count h := by
  cases slot with
  | none => simp [World.put]
  | some i => exact count_set (turning i rfl) s h

/-- An act that tells nothing and hands nothing over. -/
theorem Moves.quiet (isOpen : w'.isOpen = w.isOpen) (count : w'.count = w.count)
    (held : ∀ h, w'.held.count h = w.held.count h) : Moves accepts w [] w' where
  kept h := by simpa [ends] using held h
  places := by simp [count]
  shut shut := by
    rw [isOpen]
    exact shut.resolve_right List.not_mem_nil
  called _ mem := absurd mem List.not_mem_nil
  failed _ mem := absurd mem List.not_mem_nil
  passed _ _ mem := absurd mem List.not_mem_nil

/-- A slot goes on, with as many of each job as before. -/
theorem Moves.put {i : Nat} {s s' : Slot} (found : w.slots[i]? = some s)
    (held : ∀ h, s'.held.count h = s.held.count h) : Moves accepts w [] (w.put (some i) s') :=
  .quiet rfl rfl fun h => by
    have slots := count_set found s' h
    simp only [World.held, World.put, List.count_append]
    have same := held h
    omega

theorem hand_places (count : Nat) (jobs : List ClaimedJob) :
    List.range count ++ (hand count jobs).map Handed.place =
      List.range (count + jobs.length) := by
  induction jobs generalizing count with
  | nil => simp [hand]
  | cons job jobs ih =>
      have rest := ih (count + 1)
      rw [List.range_succ, List.append_assoc] at rest
      simpa [hand, Nat.add_assoc, Nat.add_comm 1] using rest

theorem hand_length (count : Nat) (jobs : List ClaimedJob) :
    (hand count jobs).length = jobs.length := by
  induction jobs generalizing count with
  | nil => rfl
  | cons job jobs ih => exact congrArg Nat.succ (ih (count + 1))

theorem receive_moves {slot : Option Nat} {reply : ClaimReply} (free : w.thread = .free) :
    Moves accepts w (w.receive slot reply).1.toList (w.receive slot reply).2 where
  kept h := by
    simp [World.receive, World.enter, World.held, ends, free, Thread.held, Thread.pending,
      Entry.given, Entry.calls, Entry.fails, Entry.releases]
    omega
  places := by simpa [World.receive, Entry.given] using hand_places w.count reply.jobs
  shut shut := by
    rcases shut with shut | mem
    · exact shut
    · simp [World.receive] at mem
  called _ mem := by simp [World.receive] at mem
  failed _ mem := by simp [World.receive] at mem
  passed _ _ mem := by simp [World.receive] at mem

/-- A `RELEASE` of jobs that the worker no longer holds. -/
theorem giveBack_moves {jobs : List Handed} (isOpen : w'.isOpen = w.isOpen)
    (count : w'.count = w.count)
    (held : ∀ h, w'.held.count h + jobs.count h = w.held.count h) :
    Moves accepts w (giveBack jobs).toList w' := by
  unfold giveBack
  split
  next none =>
    subst none
    exact .quiet isOpen count held
  next =>
    refine ⟨fun h => ?_, ?_, fun shut => ?_, fun _ mem => ?_, fun _ mem => ?_, fun _ _ mem => ?_⟩
    · have same := held h
      simp [ends, Entry.given, Entry.calls, Entry.fails, Entry.releases]
      omega
    · simp [Entry.given, count]
    · rw [isOpen]
      rcases shut with shut | mem
      · exact shut
      · simp at mem
    · simp at mem
    · simp at mem
    · simp at mem
      obtain ⟨rfl, rfl⟩ := mem
      rfl

theorem startNext_held (jobs : List Handed) : (startNext jobs).held = jobs := by
  cases jobs <;> rfl

theorem held_enter (thread : Thread) (w : World) (h : Handed) :
    (w.enter thread).held.count h = thread.held.count h + (w.slots.flatMap Slot.held).count h :=
  List.count_append

/-- The job's handler is called, or its `FAIL` sent: it is held no longer. -/
theorem Moves.ended {j : Handed} {e : Entry} (isOpen : w'.isOpen = w.isOpen)
    (count : w'.count = w.count) (held : ∀ h, [j].count h + w'.held.count h = w.held.count h)
    (tells : e = .called j ∧ w.isOpen = true ∨ e = .failed j ∧ accepts j.job = false) :
    Moves accepts w [e] w' := by
  rcases tells with ⟨rfl, was⟩ | ⟨rfl, refused⟩
  · refine ⟨fun h => ?_, ?_, fun shut => ?_, fun _ _ => was, fun _ mem => ?_, fun _ _ mem => ?_⟩
    · simpa [ends, Entry.given, Entry.calls, Entry.fails, Entry.releases] using held h
    · simp [Entry.given, count]
    · simpa [isOpen] using shut
    · simp at mem
    · simp at mem
  · refine ⟨fun h => ?_, ?_, fun shut => ?_, fun _ mem => ?_, fun _ mem => ?_, fun _ _ mem => ?_⟩
    · simpa [ends, Entry.given, Entry.calls, Entry.fails, Entry.releases] using held h
    · simp [Entry.given, count]
    · simpa [isOpen] using shut
    · simp at mem
    · cases List.mem_singleton.mp mem
      exact refused
    · simp at mem

theorem next_moves (fit : Fit accepts w) :
    Moves accepts w (w.next accepts).1.toList (w.next accepts).2 := by
  have before : ∀ h, w.held.count h = w.thread.held.count h +
      (w.slots.flatMap Slot.held).count h := fun h => List.count_append
  have turning := fit.turning
  have clear := fit.clear
  unfold World.next
  split
  next => exact .quiet rfl rfl fun _ => rfl
  next jobs thread =>
    rw [thread] at before
    split
    next => exact .quiet rfl rfl fun h => by rw [held_enter, startNext_held, before]; rfl
    next =>
      refine giveBack_moves rfl rfl fun h => ?_
      rw [held_enter, before, Nat.add_comm]
      simp [Thread.held, Thread.pending]
  next i jobs thread =>
    rw [thread] at before turning
    have put := held_put (some i) turning (.firing jobs)
    refine .quiet rfl rfl fun h => ?_
    rw [held_enter, before, put]
    simp [Thread.held, Thread.pending, Slot.held, Nat.add_comm]
  next slot j rest thread =>
    rw [thread] at before turning
    split
    next =>
      refine .quiet rfl rfl fun h => ?_
      rw [held_enter, before]
      rfl
    next refused =>
      have put := held_put slot turning (.settling w.isOpen)
      refine .ended (j := j) (by cases slot <;> rfl) (by cases slot <;> rfl) (fun h => ?_)
        (Or.inr ⟨rfl, by simpa using refused⟩)
      rw [held_enter, before, put, startNext_held]
      simp [Thread.held, Thread.pending, Slot.held, List.count_cons]
      omega
  next slot j rest thread =>
    rw [thread] at before clear
    have isOpen : w.isOpen = true := by
      cases shut : w.isOpen with
      | true => rfl
      | false =>
          have refused := clear shut j List.mem_cons_self
          rw [fit.active slot j rest thread] at refused
          cases refused
    refine .ended (j := j) rfl rfl (fun h => ?_) (Or.inl ⟨rfl, isOpen⟩)
    rw [held_enter, before]
    simp [Thread.held, Thread.pending, List.count_cons]
    omega
  next slot j rest thread =>
    rw [thread] at before turning
    have put := held_put slot turning (.running j)
    refine .quiet (by cases slot <;> rfl) (by cases slot <;> rfl) fun h => ?_
    rw [held_enter, before, put, startNext_held]
    rfl

theorem Moves.trans {log log' : List Entry} {w'' : World} (h : Moves accepts w log w')
    (k : Moves accepts w' log' w'') : Moves accepts w (log ++ log') w'' where
  kept j := by
    have first := h.kept j
    have later := k.kept j
    simp only [ends, List.flatMap_append, List.count_append] at first later ⊢
    omega
  places := by
    rw [List.flatMap_append, List.map_append, ← List.append_assoc, h.places, k.places]
  shut shut := by
    refine k.shut ?_
    rcases shut with shut | mem
    · exact Or.inl (h.shut (Or.inl shut))
    · rcases List.mem_append.mp mem with mem | mem
      · exact Or.inl (h.shut (Or.inr mem))
      · exact Or.inr mem
  called j mem := by
    rcases List.mem_append.mp mem with mem | mem
    · exact h.called j mem
    · have later := k.called j mem
      cases shut : w.isOpen with
      | true => rfl
      | false =>
          rw [h.shut (Or.inl shut)] at later
          cases later
  failed j mem := (List.mem_append.mp mem).elim (h.failed j) (k.failed j)
  passed jobs args mem := (List.mem_append.mp mem).elim (h.passed jobs args) (k.passed jobs args)

/-- A slot with a reply to come holds no job. -/
theorem asked_slot {i n : Nat} (asked : w.asked i = some n) :
    ∃ s, w.slots[i]? = some s ∧ s.held = [] := by
  unfold World.asked at asked
  split at asked
  next claim found => exact ⟨_, found, rfl⟩
  next found => exact ⟨_, found, rfl⟩
  next => cases asked

theorem takeNext_moves {i : Nat} {jobs : List Handed} (free : w.thread = .free)
    (found : w.slots[i]? = some (.firing jobs)) (single : jobs.length ≤ 1) :
    Moves accepts w [] (w.takeNext i jobs) := by
  unfold World.takeNext
  split
  next => exact .put found fun _ => rfl
  next job rest =>
    cases rest with
    | cons second rest => exact absurd single (by simp)
    | nil =>
        refine .quiet rfl rfl fun h => ?_
        have slots := count_set found .turning h
        rw [held_enter, World.held, free, List.count_append]
        simp [World.put, Slot.held, Thread.held, Thread.pending] at slots ⊢
        omega

theorem resume_moves (fit : Fit accepts w) (free : w.thread = .free) (a : Act) :
    Moves accepts w (w.resume concurrency a).1.toList (w.resume concurrency a).2 := by
  have same : Moves accepts w [] w := .quiet rfl rfl fun _ => rfl
  have looped (loop : Loop) : Moves accepts w [] { w with loop } := .quiet rfl rfl fun _ => rfl
  cases a with
  | close | next => exact same
  | turn | synced =>
      dsimp only [World.resume]
      repeat' split
      all_goals exact looped _
  | claimed reply =>
      dsimp only [World.resume]
      split
      next asked loop =>
        split
        next => exact (looped .resting).trans (receive_moves free)
        next => exact same
      next => exact same
  | refused =>
      dsimp only [World.resume]
      split
      next => exact looped _
      next => exact same
  | settle i | abort i | givenBack i | slotFreed i =>
      dsimp only [World.resume]
      split
      next found => exact .put found fun _ => rfl
      next => exact same
  | claimAfterAbort i =>
      dsimp only [World.resume]
      split
      next found =>
        split
        next => exact .put found fun _ => rfl
        next =>
          have turns : Moves accepts w [] (w.put (some i) .turning) := .put found fun _ => rfl
          refine turns.trans (.quiet rfl rfl fun h => ?_)
          rw [held_enter, World.held, List.count_append]
          rw [show (w.put (some i) .turning).thread = .free from free]
          rfl
      next => exact same
  | slotReply i reply =>
      dsimp only [World.resume]
      split
      next n asked =>
        split
        next =>
          obtain ⟨s, found, empty⟩ := asked_slot asked
          have turns : Moves accepts w [] (w.put (some i) .turning) :=
            .put found fun h => by rw [empty]; rfl
          exact turns.trans (receive_moves free)
        next => exact same
      next => exact same
  | slotRefused i =>
      dsimp only [World.resume]
      split
      next asked =>
        obtain ⟨n, asked⟩ := Option.isSome_iff_exists.mp asked
        obtain ⟨s, found, empty⟩ := asked_slot asked
        refine .put found fun h => ?_
        rw [empty]
        rfl
      next => exact same
  | fired i =>
      dsimp only [World.resume]
      split
      next jobs found =>
        split
        next => exact takeNext_moves free found (fit.single _ (List.mem_of_getElem? found))
        next =>
          refine giveBack_moves rfl rfl fun h => ?_
          have slots := count_set found .releasing h
          simp only [World.held, World.put, List.count_append, Slot.held, List.count_nil]
            at slots ⊢
          omega
      next => exact same

end Moves

section Fit
variable {w : World}

theorem single_put {slot : Option Nat} {s : Slot} (single : ∀ s ∈ w.slots, s.held.length ≤ 1)
    (one : s.held.length ≤ 1) : ∀ s' ∈ (w.put slot s).slots, s'.held.length ≤ 1 := by
  intro s' mem
  cases slot with
  | none =>
      rcases List.mem_append.mp mem with mem | mem
      · exact single s' mem
      · cases List.mem_singleton.mp mem
        exact one
  | some i =>
      rcases List.mem_or_eq_of_mem_set mem with mem | rfl
      · exact single s' mem
      · exact one

theorem Fit.free (free : w.thread = .free) (single : ∀ s ∈ w.slots, s.held.length ≤ 1) :
    Fit accepts w where
  clear _ h mem := by
    rw [free] at mem
    exact absurd mem List.not_mem_nil
  active slot h rest eq := by
    rw [free] at eq
    cases eq
  turning i eq := by
    rw [free] at eq
    cases eq
  single := single
  announced i jobs eq := by
    rw [free] at eq
    cases eq

/-- The next of the jobs that are left starts: the worker is open, or the schema
takes none of them. -/
theorem Fit.startNext {rest : List Handed} (single : ∀ s ∈ w.slots, s.held.length ≤ 1)
    (clear : w.isOpen = false → ∀ h ∈ rest, accepts h.job = false) :
    Fit accepts (w.enter (startNext rest)) := by
  cases rest with
  | nil => exact .free rfl single
  | cons job rest => exact ⟨clear, nofun, nofun, single, nofun⟩

theorem Fit.announcing {slot : Option Nat} {jobs : List Handed} (thread : w.thread = .announcing slot jobs)
    (turning : ∀ i, slot = some i → w.slots[i]? = some .turning)
    (single : ∀ s ∈ w.slots, s.held.length ≤ 1)
    (announced : ∀ i, slot = some i → jobs.length ≤ 1) : Fit accepts w := by
  refine ⟨fun _ h mem => ?_, fun _ _ _ eq => ?_, fun i eq => ?_, single, fun i jobs' eq => ?_⟩
  · rw [thread] at mem
    exact absurd mem List.not_mem_nil
  · rw [thread] at eq
    cases eq
  · rw [thread] at eq
    exact turning i eq
  · rw [thread] at eq
    cases eq
    exact announced i rfl

theorem next_fit (fit : Fit accepts w) : Fit accepts (w.next accepts).2 := by
  have clear := fit.clear
  have turning := fit.turning
  unfold World.next
  split
  next => exact fit
  next jobs thread =>
    split
    next isOpen =>
      refine .startNext fit.single fun shut => ?_
      rw [isOpen] at shut
      cases shut
    next => exact .free rfl fit.single
  next i jobs thread => exact .free rfl (single_put fit.single (fit.announced i jobs thread))
  next slot j rest thread =>
    rw [thread] at clear turning
    split
    next taken =>
      refine ⟨clear, fun _ _ _ eq => ?_, turning, fit.single, nofun⟩
      cases eq
      exact taken
    next =>
      refine .startNext (single_put fit.single (Nat.zero_le 1)) fun shut h mem => ?_
      have was : w.isOpen = false := by cases slot <;> exact shut
      exact clear was h (List.mem_cons_of_mem j mem)
  next slot j rest thread =>
    rw [thread] at clear turning
    refine ⟨fun shut h mem => clear shut h (List.mem_cons_of_mem j mem), nofun, turning,
      fit.single, nofun⟩
  next slot j rest thread =>
    rw [thread] at clear
    refine .startNext (single_put fit.single (Nat.zero_le 1)) fun shut h mem => ?_
    have was : w.isOpen = false := by cases slot <;> exact shut
    exact clear was h mem

theorem receive_fit {slot : Option Nat} {reply : ClaimReply}
    (turning : ∀ i, slot = some i → w.slots[i]? = some .turning)
    (single : ∀ s ∈ w.slots, s.held.length ≤ 1)
    (one : ∀ i, slot = some i → reply.jobs.length ≤ 1) : Fit accepts (w.receive slot reply).2 :=
  .announcing rfl turning single fun i eq => (hand_length w.count reply.jobs).trans_le (one i eq)

theorem asked_le {i n : Nat} (asked : w.asked i = some n) : n ≤ 1 := by
  unfold World.asked at asked
  split at asked
  next claim found =>
    cases asked
    exact Bool.toNat_le claim
  next =>
    cases asked
    exact Nat.le_refl 1
  next => cases asked

theorem put_turning {i : Nat} {s s' : Slot} (found : w.slots[i]? = some s) :
    (w.put (some i) s').slots[i]? = some s' := by
  obtain ⟨lt, -⟩ := List.getElem?_eq_some_iff.mp found
  exact List.getElem?_set_self lt

theorem resume_fit (fit : Fit accepts w) (free : w.thread = .free) (a : Act) :
    Fit accepts (w.resume concurrency a).2 := by
  have put (i : Nat) (s : Slot) (one : s.held.length ≤ 1) :
      Fit accepts (w.put (some i) s) := .free free (single_put fit.single one)
  cases a with
  | close | next => exact fit
  | turn | synced =>
      dsimp only [World.resume]
      repeat' split
      all_goals exact .free free fit.single
  | claimed reply =>
      dsimp only [World.resume]
      split
      next =>
        split
        next => exact receive_fit nofun fit.single nofun
        next => exact fit
      next => exact fit
  | refused =>
      dsimp only [World.resume]
      split
      all_goals exact .free free fit.single
  | settle i | abort i | givenBack i | slotFreed i =>
      dsimp only [World.resume]
      split
      next => exact put i _ (Nat.zero_le 1)
      next => exact fit
  | claimAfterAbort i =>
      dsimp only [World.resume]
      split
      next found =>
        split
        next => exact put i _ (Nat.zero_le 1)
        next =>
          refine .announcing rfl (fun j eq => ?_) (put i .turning (Nat.zero_le 1)).single
            fun _ _ => Nat.zero_le 1
          cases eq
          exact put_turning found
      next => exact fit
  | slotReply i reply =>
      dsimp only [World.resume]
      split
      next n asked =>
        split
        next le =>
          obtain ⟨s, found, -⟩ := asked_slot asked
          refine receive_fit (fun j eq => ?_) (put i .turning (Nat.zero_le 1)).single
            fun _ _ => le.trans (asked_le asked)
          cases eq
          exact put_turning found
        next => exact fit
      next => exact fit
  | slotRefused i =>
      dsimp only [World.resume]
      split
      next => exact put i _ (Nat.zero_le 1)
      next => exact fit
  | fired i =>
      dsimp only [World.resume]
      split
      next jobs found =>
        split
        next isOpen =>
          unfold World.takeNext
          split
          next => exact put i _ (Nat.zero_le 1)
          next job rest =>
            refine ⟨fun shut => ?_, nofun, fun j eq => ?_, (put i .turning (Nat.zero_le 1)).single,
              nofun⟩
            · rw [show w.isOpen = false from shut] at isOpen
              cases isOpen
            · cases eq
              exact put_turning found
        next => exact put i _ (Nat.zero_le 1)
      next => exact fit

end Fit

/-! What the worker holds it lets go of, once the user's code returns and the rounds
of schedules end. -/

/-- The points the thread has yet to pass. -/
def Thread.weight : Thread → Nat
  | .free => 0
  | .announcing _ jobs => 3 * jobs.length + 2
  | .starting .decoding _ _ rest => 3 * rest.length + 3
  | .starting .active _ _ rest => 3 * rest.length + 2
  | .starting .handling _ _ rest => 3 * rest.length + 1

def Slot.weight : Slot → Nat
  | .firing jobs => 3 * jobs.length + 1
  | _ => 0

def World.weight (w : World) : Nat := w.thread.weight + (w.slots.map Slot.weight).sum

section Drain
variable {w : World}

theorem weight_put (slot : Option Nat) (turning : ∀ i, slot = some i → w.slots[i]? = some .turning)
    (s : Slot) :
    ((w.put slot s).slots.map Slot.weight).sum = (w.slots.map Slot.weight).sum + s.weight := by
  cases slot with
  | none => simp [World.put]
  | some i => exact sum_set (turning i rfl) s Slot.weight

theorem startNext_weight (jobs : List Handed) : (startNext jobs).weight = 3 * jobs.length := by
  cases jobs with
  | nil => rfl
  | cons job jobs => simp [startNext, Thread.weight]; omega

theorem next_weight (fit : Fit accepts w) (busy : w.thread ≠ .free) :
    (w.next accepts).2.weight < w.weight := by
  have turning := fit.turning
  have startNext := startNext_weight
  unfold World.next
  split
  next free => exact absurd free busy
  next jobs thread =>
    split
    all_goals
      simp only [World.weight, World.enter, thread, startNext]
      simp only [Thread.weight]
      omega
  next i jobs thread =>
    rw [thread] at turning
    have put := weight_put (some i) turning (.firing jobs)
    simp only [World.weight, World.enter, thread, Thread.weight, put, Slot.weight]
    omega
  next slot j rest thread =>
    rw [thread] at turning
    have put := weight_put slot turning (.settling w.isOpen)
    split
    all_goals
      simp only [World.weight, World.enter, thread, startNext, put]
      simp only [Thread.weight, Slot.weight]
      omega
  next slot j rest thread =>
    simp only [World.weight, World.enter, thread, Thread.weight]
    omega
  next slot j rest thread =>
    rw [thread] at turning
    have put := weight_put slot turning (.running j)
    simp only [World.weight, World.enter, thread, startNext, put]
    simp only [Thread.weight, Slot.weight]
    omega

theorem fired_weight {i : Nat} {jobs : List Handed} (free : w.thread = .free)
    (found : w.slots[i]? = some (.firing jobs)) :
    (w.resume concurrency (.fired i)).2.weight < w.weight := by
  have put (s : Slot) := sum_set found s Slot.weight
  simp only [World.resume, found]
  split
  next =>
    unfold World.takeNext
    split
    next =>
      have ended := put .ended
      simp only [World.weight, World.put, free, Thread.weight, Slot.weight] at ended ⊢
      omega
    next job rest =>
      have turning := put .turning
      simp only [World.weight, World.put, World.enter, free, Thread.weight, Slot.weight,
        List.length_cons, List.length_nil] at turning ⊢
      omega
  next =>
    have releasing := put .releasing
    simp only [World.weight, World.put, free, Thread.weight, Slot.weight] at releasing ⊢
    omega

end Drain

theorem step_moves {w : World} (fit : Fit accepts w) (a : Act) :
    Moves accepts w (w.step accepts concurrency a).1.toList
      (w.step accepts concurrency a).2 := by
  have same : Moves accepts w [] w := .quiet rfl rfl fun _ => rfl
  unfold World.step
  split
  next =>
    split
    next =>
      refine ⟨fun h => ?_, ?_, fun _ => rfl, fun _ mem => ?_, fun _ mem => ?_, fun _ _ mem => ?_⟩
      · simp [ends, World.held, Entry.given, Entry.calls, Entry.fails, Entry.releases]
      · simp [Entry.given]
      · simp at mem
      · simp at mem
      · simp at mem
    next => exact same
  next => exact next_moves fit
  next =>
    split
    next free => exact resume_moves fit free _
    next => exact same

theorem step_fit {w : World} {a : Act} (fit : Fit accepts w) (clear : Clear accepts w a) :
    Fit accepts (w.step accepts concurrency a).2 := by
  unfold World.step
  split
  next =>
    split
    next => exact ⟨fun _ => clear rfl, fit.active, fit.turning, fit.single, fit.announced⟩
    next => exact fit
  next => exact next_fit fit
  next =>
    split
    next free => exact resume_fit fit free _
    next => exact fit

/-- Each act meets the condition in the world it happens in. -/
abbrev ClearRun (accepts : ClaimedJob → Bool) (concurrency : Nat) (acts : List Act) : Prop :=
  Along (fun before a => Clear accepts (world accepts concurrency before) a) acts

theorem run_fit {acts : List Act} (clear : ClearRun accepts concurrency acts) :
    Fit accepts (world accepts concurrency acts) ∧
      Moves accepts {} (history accepts concurrency acts) (world accepts concurrency acts) ∧
      Along (fun before e => ∀ h, e = .called h → .closed ∉ before)
        (history accepts concurrency acts) := by
  induction acts using List.reverseRecOn with
  | nil => exact ⟨.free rfl nofun, .quiet rfl rfl fun _ => rfl, along_nil⟩
  | append_singleton acts a ih =>
      obtain ⟨before, now⟩ := along_snoc.mp clear
      obtain ⟨fit, moves, late⟩ := ih before
      have step : Moves accepts _ ((world accepts concurrency acts).step accepts concurrency a).1.toList _ :=
        step_moves fit a
      rw [world_snoc, history_snoc]
      refine ⟨step_fit fit now, moves.trans step, late.append fun pre e post split h eq => ?_⟩
      subst eq
      have isOpen := step.called h (split ▸ by simp)
      intro closed
      rcases List.mem_append.mp closed with mem | mem
      · rw [moves.shut (Or.inr mem)] at isOpen
        cases isOpen
      · cases entry : ((world accepts concurrency acts).step accepts concurrency a).1 with
        | none =>
            rw [entry] at split
            cases pre <;> cases split
        | some e' =>
            rw [entry] at split
            cases pre with
            | nil => exact absurd mem List.not_mem_nil
            | cons _ pre => cases pre <;> cases split

/-- The user's code returns, or the round of a slot's schedules ends. -/
def Returns (a : Act) : Prop := a = .next ∨ ∃ i, a = .fired i

/-- While the worker holds a job, an act of its own brings it nearer its end. -/
theorem exists_returns {w : World} (fit : Fit accepts w) (holds : w.held ≠ []) :
    ∃ a, Returns a ∧ (w.step accepts concurrency a).2.weight < w.weight := by
  by_cases free : w.thread = .free
  · have firing : ∃ s ∈ w.slots, s.held ≠ [] := by
      by_contra none
      refine holds ?_
      rw [World.held, free]
      exact List.flatMap_eq_nil_iff.mpr fun s mem => by
        by_contra some
        exact none ⟨s, mem, some⟩
    obtain ⟨s, mem, some⟩ := firing
    obtain ⟨i, found⟩ := List.mem_iff_getElem?.mp mem
    cases s with
    | firing jobs =>
        refine ⟨.fired i, Or.inr ⟨i, rfl⟩, ?_⟩
        simp only [World.step, free, ite_true]
        exact fired_weight free found
    | _ => exact absurd rfl some
  · exact ⟨.next, Or.inl rfl, next_weight fit free⟩

theorem clear_of_returns {w : World} {a : Act} (returns : Returns a) : Clear accepts w a := by
  rintro rfl
  rcases returns with eq | ⟨i, eq⟩ <;> cases eq

/-- What is held is let go of by the worker's own acts. -/
theorem drain (n : Nat) {acts : List Act} (clear : ClearRun accepts concurrency acts)
    (le : (world accepts concurrency acts).weight ≤ n) :
    ∃ more, (∀ a ∈ more, Returns a) ∧
      (world accepts concurrency (acts ++ more)).held = [] := by
  by_cases holds : (world accepts concurrency acts).held = []
  · exact ⟨[], nofun, by rwa [List.append_nil]⟩
  · obtain ⟨a, returns, less⟩ :=
      exists_returns (run_fit clear).1 holds
    rw [← world_snoc] at less
    cases n with
    | zero => exact absurd le (by omega)
    | succ n =>
        have next : ClearRun accepts concurrency (acts ++ [a]) :=
          along_snoc.mpr ⟨clear, clear_of_returns returns⟩
        obtain ⟨more, all, free⟩ := drain n next (by omega)
        refine ⟨a :: more, fun b mem => ?_, by simpa using free⟩
        rcases List.mem_cons.mp mem with rfl | mem
        · exact returns
        · exact all b mem

/-- Over any acts where no `close` comes from the user's code while a job of the
same reply has yet to reach its handler: no handler is called after the close, and
each job handed over has met exactly one end, once, or is still held; and what is
held is let go of once the user's code returns and the rounds of schedules end. -/
theorem run_closes {acts : List Act} (clear : ClearRun accepts concurrency acts) :
    (∀ before later, history accepts concurrency acts = before ++ .closed :: later →
      ∀ h, .called h ∉ later) ∧
    (∀ h ∈ (history accepts concurrency acts).flatMap Entry.given,
      ends (history accepts concurrency acts) h +
        (world accepts concurrency acts).held.count h = 1) ∧
    (∀ h, .failed h ∈ history accepts concurrency acts → accepts h.job = false) ∧
    (∀ jobs passed, .released jobs passed ∈ history accepts concurrency acts →
      passed = jobs.map fun h => (h.job.id, h.job.token)) ∧
    ∃ more, (∀ a ∈ more, Returns a) ∧
      (world accepts concurrency (acts ++ more)).held = [] := by
  obtain ⟨fit, moves, late⟩ := run_fit clear
  refine ⟨fun before later split h mem => ?_, fun h mem => ?_, moves.failed, moves.passed,
    drain _ clear (Nat.le_refl _)⟩
  · obtain ⟨mid, post, rfl⟩ := List.append_of_mem mem
    have after : history accepts concurrency acts =
        (before ++ .closed :: mid) ++ .called h :: post := by
      rw [split]
      simp
    exact late _ _ _ after h rfl (by simp)
  · have places := moves.places
    have nodup : ((history accepts concurrency acts).flatMap Entry.given).Nodup := by
      refine List.Nodup.of_map Handed.place ?_
      rw [List.range_zero, List.nil_append] at places
      rw [places]
      exact List.nodup_range
    have kept := moves.kept h
    rw [List.count_eq_one_of_mem nodup mem] at kept
    have none : ({} : World).held.count h = 0 := List.count_nil
    omega

/-- A job that has yet to reach its handler is called, or is still to be after the
user's code returns. -/
theorem next_calls {w : World} {h : Handed} (pending : h ∈ w.thread.pending)
    (taken : accepts h.job = true) : (∃ j, (w.next accepts).1 = some (.called j)) ∨
      h ∈ (w.next accepts).2.thread.pending := by
  have started : ∀ rest, h ∈ rest → h ∈ (startNext rest).pending := by
    intro rest mem
    cases rest with
    | nil => exact mem
    | cons => exact mem
  unfold World.next
  split
  all_goals
    rename_i thread
    rw [thread] at pending
  next => exact absurd pending List.not_mem_nil
  next => exact absurd pending List.not_mem_nil
  next => exact absurd pending List.not_mem_nil
  next =>
    right
    split
    next => exact pending
    next refused =>
      rcases List.mem_cons.mp pending with rfl | mem
      · exact absurd taken refused
      · exact started _ mem
  next => exact Or.inl ⟨_, rfl⟩
  next => exact Or.inr (started _ pending)

theorem next_passes {w : World} (busy : w.thread ≠ .free) :
    (w.next accepts).2.thread.weight < w.thread.weight := by
  have startNext := startNext_weight
  unfold World.next
  split
  all_goals
    rename_i thread
    rw [thread]
  next => exact absurd thread busy
  next jobs =>
    split
    all_goals
      simp only [World.enter, startNext]
      simp only [Thread.weight]
      omega
  next => exact Nat.succ_pos _
  next =>
    split
    all_goals
      simp only [World.enter, startNext]
      simp only [Thread.weight]
      omega
  next => exact Nat.lt_succ_self _
  next =>
    simp only [World.enter, startNext]
    exact Nat.lt_succ_self _

theorem nexts_call (n : Nat) {w : World} {h : Handed} (pending : h ∈ w.thread.pending)
    (taken : accepts h.job = true) (le : w.thread.weight ≤ n) :
    ∃ k j, .called j ∈ (served (World.step accepts concurrency) (List.replicate k .next) w).filterMap
      Prod.snd := by
  have busy : w.thread ≠ .free := fun free => by
    rw [free] at pending
    exact absurd pending List.not_mem_nil
  have less := @next_passes accepts w busy
  rcases next_calls pending taken with ⟨j, called⟩ | pending
  · exact ⟨1, j, by simp [served, World.step, called]⟩
  · cases n with
    | zero => omega
    | succ n =>
        obtain ⟨k, j, mem⟩ := nexts_call n pending taken (by omega)
        refine ⟨k + 1, j, ?_⟩
        rw [List.replicate_succ, served, List.filterMap_cons]
        split
        next => exact mem
        next => exact List.mem_cons_of_mem _ mem

/-- The condition is the least one: a `close` that comes while a job has yet to
reach its handler comes before a handler that is called. -/
theorem closes_late {acts : List Act} {h : Handed}
    (isOpen : (world accepts concurrency acts).isOpen = true)
    (pending : h ∈ (world accepts concurrency acts).thread.pending)
    (taken : accepts h.job = true) :
    ∃ k later j, history accepts concurrency (acts ++ [.close] ++ List.replicate k .next) =
      history accepts concurrency acts ++ .closed :: later ∧ .called j ∈ later := by
  let w : World := { world accepts concurrency acts with isOpen := false }
  obtain ⟨k, j, mem⟩ := @nexts_call accepts concurrency _ w h pending taken (Nat.le_refl _)
  refine ⟨k, _, j, ?_, mem⟩
  have closed : (world accepts concurrency acts).step accepts concurrency .close =
      (some .closed, w) := by
    rw [World.step, if_pos isOpen]
  have split : history accepts concurrency (acts ++ [.close] ++ List.replicate k .next) =
      history accepts concurrency (acts ++ [.close]) ++
        (served (World.step accepts concurrency) (List.replicate k .next)
          (world accepts concurrency (acts ++ [.close]))).filterMap Prod.snd := by
    rw [history, served_append, List.filterMap_append]
    rfl
  rw [split, world_snoc, history_snoc, closed]
  simp

/-! A worker takes whatever its queue replies: no reply has more jobs than were asked for. -/

section Replies
variable {w : World} {m : GroupArgs} {us lease : Nat} {r : Option Gcra.Rate} {q : Keys}
  {reply : ClaimReply}

theorem resume_claimed {tokens : List String} (loop : w.loop = .claiming tokens.length)
    (answer : (exec m us (.claim lease r tokens) q).1 = .claimed reply) :
    w.resume concurrency (.claimed reply) = { w with loop := .resting }.receive none reply := by
  have few : reply.jobs.length ≤ tokens.length := by
    have asks : (exec m us (.claim lease r tokens) q).1.started ≤ tokens.length :=
      exec_asks (.claim lease r tokens)
    rw [answer] at asks
    exact asks
  simp only [World.resume, loop, if_pos few]

/-- The call of a slot is the settle of its job or, after an abort, a claim of one. -/
theorem resume_slotReply {i : Nat} {call : Call} (asked : w.asked i = some call.asks)
    (answer : (exec m us call q).1.started = reply.jobs.length) :
    w.resume concurrency (.slotReply i reply) =
      (w.put (some i) .turning).receive (some i) reply := by
  have few : reply.jobs.length ≤ call.asks := answer ▸ exec_asks call
  simp only [World.resume, asked, if_pos few]

end Replies

/-! One reply with two jobs, and a `close` from a handler's own code. -/

def claimedJob (id : String) : ClaimedJob := ⟨id, "\x7b\x7d", 1, 3, "t" ++ id, -1⟩

/-- The loop claims `a` and `b`; the user's code returns `returns` times, closes the
worker and returns once more. -/
def closingRun (returns : Nat) : List Act :=
  [.turn, .synced, .claimed { jobs := [claimedJob "a", claimedJob "b"] }] ++
    List.replicate returns .next ++ [.close, .next]

theorem run_closes_lastHandler :
    (∀ before later, history (fun _ => true) 2 (closingRun 6) = before ++ .closed :: later →
      ∀ h, .called h ∉ later) ∧
    (∀ h ∈ (history (fun _ => true) 2 (closingRun 6)).flatMap Entry.given,
      ends (history (fun _ => true) 2 (closingRun 6)) h +
        (world (fun _ => true) 2 (closingRun 6)).held.count h = 1) ∧
    (∀ h, .failed h ∈ history (fun _ => true) 2 (closingRun 6) → true = false) ∧
    (∀ jobs passed, .released jobs passed ∈ history (fun _ => true) 2 (closingRun 6) →
      passed = jobs.map fun h => (h.job.id, h.job.token)) ∧
    ∃ more, (∀ a ∈ more, Returns a) ∧
      (world (fun _ => true) 2 (closingRun 6 ++ more)).held = [] :=
  run_closes (along_of_take (by decide))

/-- The handler of `a` closes the worker before `b` has started: `b` is started. -/
theorem firstHandler_closes_late :
    ¬ ∀ acts before later, history (fun _ => true) 2 acts = before ++ .closed :: later →
      ∀ h, .called h ∉ later := by
  intro closes
  refine closes (closingRun 3 ++ [.next, .next])
    [.handed [⟨0, claimedJob "a"⟩, ⟨1, claimedJob "b"⟩], .called ⟨0, claimedJob "a"⟩]
    [.called ⟨1, claimedJob "b"⟩] (by decide) ⟨1, claimedJob "b"⟩ ?_
  exact List.mem_singleton.mpr rfl

end NxgtData.Worker
