import NxgtData.Queue.Firing
import NxgtData.Queue.ResolveAdd
import NxgtData.Queue.Trust

/-!
The two doors a job comes in by, `add` and the schedules' fire, against the
claim's check. What `resolveAdd` accepts is within the reader's limits whatever
the definition; a fire takes the definition's timeout as it was given, which the
reader takes up to 15 digits of. So the queue trusts all it writes exactly when
that timeout fits, or when its schema stores nothing.
-/
namespace NxgtData.Queue
open Decimal Gcra

variable {V : Type} {json : Json V} {calendar : Calendar} {d : QueueDefinition V}

/-- A group that `resolveGroup` answers is one the scripts accept. -/
theorem groupSound_text {s : Utf16} (h : s = [] ∨ isName s = true ∧ colon ∉ s) :
    groupSound (some s.text) = true := by
  rcases h with rfl | ⟨name, free⟩
  · rfl
  · simp only [isName, Bool.and_eq_true, decide_eq_true_eq] at name
    obtain ⟨⟨⟨-, short⟩, noOpen⟩, noClose⟩ := name
    have bytes := Utf16.utf8ByteSize_text s
    have clear : (Utf16.text s).toList.any
        (fun c => c = ':' || c = '\x7b' || c = '\x7d') = false := by
      refine List.any_eq_false.mpr fun c mem bad => ?_
      simp only [Bool.or_eq_true, decide_eq_true_eq] at bad
      rcases bad with (rfl | rfl) | rfl
      · exact free ((Utf16.mem_text (by decide)).mp mem)
      · exact noOpen ((Utf16.mem_text (by decide)).mp mem)
      · exact noClose ((Utf16.mem_text (by decide)).mp mem)
    unfold maxName at short
    simp only [groupSound, clear, Bool.not_false, Bool.and_true, Bool.or_eq_true, decide_eq_true_eq]
    exact Or.inr (by omega)

/-- Every job `add` sends is within the reader's limits. -/
theorem addArgs_trusted (options : ResolvedAdd) (data : String) :
    (d.addArgs options data).toNewJob.Trusted where
  group := groupSound_text options.group.2
  attempts := d.attempts.2.1
  priority := options.priority.2
  timeout := by
    cases timeout : options.timeoutMs with
    | none => exact Or.inl (by simp [QueueDefinition.addArgs, timeout, orNone])
    | some ms =>
        have least := ms.2.1
        have most := ms.2.2
        unfold maxTimerMs at most
        refine Or.inr ?_
        simp only [QueueDefinition.addArgs, timeout, orNone, Option.map_some]
        omega

/-- The definition's timeout is one the reader takes. -/
def QueueDefinition.Fits (d : QueueDefinition V) : Prop := ∀ t ∈ d.timeout, t.1 < 10 ^ 15

theorem occurrence_trusted (fits : d.Fits) (id : String) (due : Nat) (data : String) :
    (occurrenceJob id due d.attempts (orNone (d.timeout.map Subtype.val)) data).Trusted where
  group := rfl
  attempts := d.attempts.2.1
  priority := Nat.zero_le _
  timeout := by
    cases timeout : d.timeout with
    | none => exact Or.inl (by simp [occurrenceJob, orNone])
    | some t =>
        have least := t.2.1
        have most := fits t timeout
        refine Or.inr ?_
        simp only [occurrenceJob, orNone, Option.map_some]
        omega

/-- A run of the calls a queue bound to `d` and its workers send. -/
def Serves (json : Json V) (calendar : Calendar) (d : QueueDefinition V) (calls : List Timed) :
    Prop := ∀ c ∈ calls, Sent json calendar d c.2

theorem Serves.sends {calls : List Timed} (serves : Serves json calendar d calls) (fits : d.Fits) :
    Sends NewJob.Trusted calls := by
  intro c mem
  have sent := serves c mem
  cases call : c.2 with
  | add jobs =>
      rw [call] at sent
      intro j mem
      obtain ⟨options, uuid, call, resolved, value, data, -, -, rfl⟩ := sent.2 j mem
      exact addArgs_trusted resolved data
  | fire id due next attempts timeout =>
      rw [call] at sent
      cases sent
      exact occurrence_trusted fits id due
  | _ => trivial

/-- What the package writes, it trusts: every hash of every run passes the check,
and no claim fails a job as `INVALID`. -/
def Trusting (json : Json V) (calendar : Calendar) (d : QueueDefinition V) : Prop :=
  ∀ calls, Serves json calendar d calls →
    (run d.groupArgs calls).toBoard.Trusted ∧ ∀ e ∈ log d.groupArgs calls, e.2.invalid = []

theorem trusting_of_fits (fits : d.Fits) : Trusting json calendar d :=
  fun calls serves => run_trusted calls (serves.sends fits)

/-! A schema that stores nothing. -/

theorem resolveSchedule_stores {id : Js} {schedule : Option (ScheduleInput V)} {schema : Schema V}
    {lead : Message} {queue : Utf16} {s : ScheduleDefinition}
    (h : resolveSchedule json calendar id schedule schema lead queue = .ok s) :
    Stores json schema s.data := by
  unfold resolveSchedule at h
  split at h
  next => cases h
  next id known =>
    dsimp only at h
    split at h
    next => cases h
    next given =>
      repeat' split at h
      all_goals first | cases h | skip
      next =>
        obtain ⟨everyMs, -, h⟩ := bind_ok h
        obtain ⟨data, stored, h⟩ := bind_ok h
        cases h
        exact toJson_stores stored
      next =>
        obtain ⟨-, -, h⟩ := bind_ok h
        obtain ⟨data, stored, h⟩ := bind_ok h
        obtain ⟨-, -, h⟩ := bind_ok h
        cases h
        exact toJson_stores stored

theorem mapM_ok {α β : Type} {f : α → Except Refusal β} {l : List α} {r : List β}
    (h : l.mapM f = .ok r) : ∀ b ∈ r, ∃ a ∈ l, f a = .ok b := by
  induction l generalizing r with
  | nil =>
      cases h
      simp
  | cons a l ih =>
      rw [List.mapM_cons] at h
      obtain ⟨b, first, h⟩ := bind_ok h
      obtain ⟨bs, rest, h⟩ := bind_ok h
      cases h
      intro b' mem
      rcases List.mem_cons.mp mem with rfl | mem
      · exact ⟨a, List.mem_cons_self, first⟩
      · obtain ⟨a', inside, eq⟩ := ih rest b' mem
        exact ⟨a', List.mem_cons_of_mem a inside, eq⟩

theorem defineQueue_stores {input : QueueInput V} (h : defineQueue json calendar input = .ok d) :
    ∀ s ∈ d.schedules, Stores json d.schema s.data := by
  obtain ⟨name, -, h⟩ := bind_ok h
  obtain ⟨schema, -, h⟩ := bind_ok h
  obtain ⟨result, -, h⟩ := bind_ok h
  obtain ⟨attempts, -, h⟩ := bind_ok h
  obtain ⟨backoff, -, h⟩ := bind_ok h
  obtain ⟨lease, -, h⟩ := bind_ok h
  obtain ⟨keepFailed, -, h⟩ := bind_ok h
  obtain ⟨timeout, -, h⟩ := bind_ok h
  obtain ⟨keepCompleted, -, h⟩ := bind_ok h
  obtain ⟨rateLimit, -, h⟩ := bind_ok h
  obtain ⟨groups, -, h⟩ := bind_ok h
  obtain ⟨schedules, resolved, h⟩ := bind_ok h
  cases h
  intro s mem
  cases given : input.schedules with
  | undefined =>
      rw [given] at resolved
      cases resolved
      cases mem
  | notObject =>
      rw [given] at resolved
      cases resolved
  | entries list =>
      rw [given, resolveSchedules] at resolved
      dsimp only at resolved
      split at resolved
      next => cases resolved
      next =>
        obtain ⟨entry, -, one⟩ := mapM_ok resolved s mem
        exact resolveSchedule_stores one

/-- No job and no schedule is stored. -/
structure Keys.Idle (m : GroupArgs) (q : Keys) : Prop where
  sane : Sane m q.toBoard
  jobs : ∀ id, q.job id = none
  schedules : ∀ id, q.schedule id = none

theorem Keys.Idle.fire {m : GroupArgs} {q : Keys} (idle : q.Idle m) (now : Nat) (id : String)
    (due next attempts : Nat) (timeout : Int) :
    (fire m now id due next attempts timeout q).2 = q := by
  have none : scheduleSound (q.scheduleHash id) = false := by
    rw [Keys.scheduleHash, idle.schedules id]
    rfl
  unfold Queue.fire
  dsimp only
  rw [none]
  split
  next => rfl
  next =>
    split
    next => rfl
    next =>
      split
      next => rfl
      next => rfl

theorem sync_nil_schedule {q : Keys} (free : ∀ id, q.schedule id = none) (id : String) :
    (sync [] q).2.schedule id = none := by
  have swept : ∀ (ids listed : List String) (st : Nat × Keys), (∀ id, st.2.schedule id = none) →
      ∀ id, (ids.foldl (sweepOne listed) st).2.schedule id = none := by
    intro ids listed
    induction ids with
    | nil => exact fun _ free => free
    | cons id ids ih =>
        refine fun st free => ih _ fun id' => ?_
        unfold sweepOne
        dsimp only
        split
        next => exact free id'
        next =>
          split
          next =>
            change Function.update st.2.schedule id _ id' = _
            by_cases own : id' = id
            · rw [own, Function.update_self]
            · rw [Function.update_of_ne own]
              exact free id'
          next => exact free id'
  unfold sync
  split
  next => exact free id
  next =>
    split
    next => exact free id
    next => exact swept _ _ _ free id

/-- With nothing stored and nothing to store, a call a bound queue sends stores
nothing. -/
theorem Keys.Idle.exec {q : Keys} (idle : q.Idle d.groupArgs) (us : Nat) (c : Call)
    (sent : Sent json calendar d c) (none : ∀ text, ¬ Stores json d.schema text)
    (schedules : d.schedules = []) : (exec d.groupArgs us c q).2.Idle d.groupArgs := by
  have fresh : ∀ {b : Board} {ms : List Mark},
      Leads d.groupArgs (Writes d.groupArgs fun _ => False) q.toBoard ms b →
      ∀ id, b.job id = Option.none := by
    intro b ms leads id
    have no := leads.hashes (I := fun _ => False) (fun _ _ ⟨_, _, no, _⟩ => no) (fun _ no => no)
      (fun id h is => by rw [idle.jobs id] at is; cases is)
    cases is : b.job id with
    | none => rfl
    | some h => exact (no id h is).elim
  have quiet : c.Sends (fun _ => False) → c.schedules = false →
      (Queue.exec d.groupArgs us c q).2.Idle d.groupArgs := by
    intro sends other
    have leads := exec_leads us c sends (fun _ no => no.elim) idle.sane
    have kept := @exec_timetable d.groupArgs q us c other
    refine ⟨leads.sane idle.sane, fresh leads, fun id => ?_⟩
    exact (congrFun (congrArg (fun t => t.2.1) kept) id).trans (idle.schedules id)
  have still : ∀ {q' : Keys}, q'.toBoard = q.toBoard → (∀ id, q'.schedule id = Option.none) →
      q'.Idle d.groupArgs := by
    intro q' board free
    refine ⟨board ▸ idle.sane, fun id => ?_, free⟩
    rw [board]
    exact idle.jobs id
  cases c with
  | add jobs =>
      refine quiet (fun j mem => ?_) rfl
      obtain ⟨options, uuid, call, resolved, value, data, -, stored, -⟩ := sent.2 j mem
      unfold encodeData at stored
      exact none data (toJson_stores stored)
  | fire id due next attempts timeout =>
      simp only [Queue.exec, guarded]
      split
      next => exact idle
      next q' marker =>
        obtain ⟨board, -⟩ := groupModeCheck_toBoard marker
        have free : ∀ id, q'.schedule id = Option.none := fun id =>
          (congrFun (congrArg (fun t => t.2.1) (marked_keeps unworking_timetable marker)) id).trans
            (idle.schedules id)
        change (Queue.fire d.groupArgs (us / 1000) id due next attempts timeout q').2.Idle _
        rw [(still board free).fire]
        exact still board free
  | upsert args =>
      obtain ⟨id, schedule, lead, now, resolved, accepted, -⟩ := sent
      exact (none _ (resolveSchedule_stores accepted)).elim
  | sync list =>
      obtain ⟨now, eq⟩ := sent
      rw [schedules, List.map_nil] at eq
      subst eq
      exact still (sync_keeps unscheduling_toBoard []) (sync_nil_schedule idle.schedules)
  | defer id due untl =>
      refine still (defer_keeps unscheduling_toBoard id due untl) fun id' => ?_
      change (Queue.defer id due untl q).2.schedule id' = Option.none
      have kept : (Queue.defer id due untl q).2.schedule = q.schedule := by
        unfold Queue.defer
        split
        next => rfl
        next =>
          split
          next => rfl
          next => split <;> rfl
      rw [kept]
      exact idle.schedules id'
  | unschedule id =>
      refine still (unschedule_keeps unscheduling_toBoard id) fun id' => ?_
      change (Queue.unschedule id q).2.schedule id' = Option.none
      unfold Queue.unschedule
      split
      next => exact idle.schedules id'
      next =>
        change Function.update q.schedule id Option.none id' = Option.none
        by_cases own : id' = id
        · rw [own, Function.update_self]
        · rw [Function.update_of_ne own]
          exact idle.schedules id'
  | _ => exact quiet trivial rfl

/-- A schema that stores nothing leaves nothing to trust. -/
theorem trusting_of_none {input : QueueInput V} (accepted : defineQueue json calendar input = .ok d)
    (none : ∀ text, ¬ Stores json d.schema text) : Trusting json calendar d := by
  have schedules : d.schedules = [] := by
    cases is : d.schedules with
    | nil => rfl
    | cons s rest =>
        exact (none _ (defineQueue_stores accepted s (by simp [is]))).elim
  have idle : ∀ calls q, Serves json calendar d calls → Keys.Idle d.groupArgs q →
      (runFrom d.groupArgs calls q).Idle d.groupArgs ∧
        ∀ e ∈ logFrom d.groupArgs calls q, e.2.invalid = [] := by
    intro calls
    induction calls with
    | nil => exact fun q _ idle => ⟨idle, by simp [logFrom, served]⟩
    | cons c calls ih =>
        intro q serves idle
        have first := idle.exec c.1 c.2 (serves c List.mem_cons_self) none schedules
        obtain ⟨rest, clean⟩ := ih _ (fun c mem => serves c (List.mem_cons_of_mem _ mem)) first
        refine ⟨rest, fun e mem => ?_⟩
        rcases List.mem_cons.mp mem with rfl | mem
        · exact exec_invalid c.1 c.2 idle.sane fun id h is => by
            rw [idle.jobs id] at is
            cases is
        · exact clean e mem
  intro calls serves
  obtain ⟨idle, clean⟩ := idle calls .empty serves ⟨.empty _, fun _ => rfl, fun _ => rfl⟩
  refine ⟨fun id h is => ?_, clean⟩
  rw [idle.jobs id] at is
  cases is

/-! A timeout past the reader's digits. -/

/-- `tick`. -/
def tickId : ScheduleId := ⟨.ofText "tick", by decide⟩

/-- A schedule every second. -/
def tick (data : String) : ScheduleDefinition :=
  { id := tickId, recurrence := .every ⟨1000, by decide⟩, data }

/-- It can be upserted with any text the schema stores. -/
theorem resolveSchedule_tick {data : String} (stored : Stores json d.schema data) (lead : Message) :
    ∃ id schedule, resolveSchedule json calendar id schedule d.schema lead d.name =
      .ok (tick data) := by
  obtain ⟨value, kept⟩ := stores_toJson stored (fun detail => .queueError "INVALID" d.name
    (lead ++ [.text " schedule "] ++ quoted tickId ++ [.text " "] ++ detail)) "data " "the schema"
  refine ⟨.string tickId, some { every := .number (.ofNat 1000), data := value }, ?_⟩
  have known : toScheduleId (.string tickId) = some tickId := rfl
  have every : ∀ refuse, everyOf (.number (.ofNat 1000)) refuse = .ok ⟨1000, by decide⟩ := by
    intro refuse
    rw [everyOf, durationMs_ofNat (by decide)]
    rfl
  simp only [resolveSchedule, known, every, kept, Js.isUndefined]
  rfl

/-- It is upserted, and fired when it is due. -/
def tickRun (d : QueueDefinition V) (calendar : Calendar) (data : String) : List Timed :=
  [(0, .upsert ((tick data).args calendar 0)), (1000000, d.fireArgs "tick" 1000 2000)]

theorem tickRun_serves {data : String} (stored : Stores json d.schema data) :
    Serves json calendar d (tickRun d calendar data) := by
  intro c mem
  simp only [tickRun, List.mem_cons, List.not_mem_nil, or_false] at mem
  rcases mem with rfl | rfl
  · obtain ⟨id, schedule, resolved⟩ := resolveSchedule_tick stored []
    exact ⟨id, schedule, [], 0, tick data, resolved, rfl⟩
  · exact rfl

theorem tickRun_job (d : QueueDefinition V) (calendar : Calendar) (data : String) :
    ∃ sent, (run d.groupArgs (tickRun d calendar data)).job (occurrence "tick" 1000) =
      some ((occurrenceJob "tick" 1000 d.attempts (orNone (d.timeout.map Subtype.val)) sent).hash
        d.groupArgs 1000) := by
  let q := (upsert ((tick data).args calendar 0) .empty).2
  let q' : Keys := { q with groupsMode := some d.groupArgs.mode }
  have marker : q.groupModeCheck d.groupArgs = some q' := rfl
  have hash : q'.scheduleHash "tick" = ⟨some "every", some (toString 1000), none, some data,
    some "runtime"⟩ := rfl
  have trusted : scheduleSound (q'.scheduleHash "tick") = true := by
    rw [hash]
    simp [scheduleSound]
    decide
  have due : q'.due "tick" = some 1000 := rfl
  obtain ⟨sent, written⟩ := fire_written (m := d.groupArgs) 1000 2000 d.attempts
    (orNone (d.timeout.map Subtype.val)) (by decide) due le_rfl trusted rfl
  refine ⟨sent, ?_⟩
  have fired : (exec d.groupArgs 1000000 (d.fireArgs "tick" 1000 2000) q).2 =
      (fire d.groupArgs 1000 "tick" 1000 2000 d.attempts (orNone (d.timeout.map Subtype.val)) q').2 := by
    simp only [QueueDefinition.fireArgs, exec, guarded, marker]
    rfl
  have ran : run d.groupArgs (tickRun d calendar data) =
      (exec d.groupArgs 1000000 (d.fireArgs "tick" 1000 2000) q).2 := rfl
  rw [ran, fired, written, Function.update_self]

/-- A hash that passes the check has a timeout of 15 digits at most. -/
theorem timeout_of_sound {m : GroupArgs} {j : NewJob} {now t : Nat} (set : j.timeoutMs = t)
    (trusted : sound (j.hash m now) = true) : t < 10 ^ 15 := by
  have field : (j.hash m now).timeout = some (toString t) := by
    change (if j.timeoutMs ≥ 0 then some (toString j.timeoutMs.toNat) else none) = _
    rw [set, if_pos (by omega), Int.toNat_natCast]
  unfold sound at trusted
  rw [field, Option.all_some] at trusted
  exact (timeout_sound.mp (Bool.and_eq_true_iff.mp (Bool.and_eq_true_iff.mp trusted).1).2).2

theorem fits_of_trusting {data : String} (stored : Stores json d.schema data)
    (trusting : Trusting json calendar d) : d.Fits := by
  intro t timeout
  obtain ⟨trusted, -⟩ := trusting _ (tickRun_serves stored)
  obtain ⟨sent, job⟩ := tickRun_job d calendar data
  refine timeout_of_sound ?_ (trusted _ _ job)
  rw [Option.mem_def.mp timeout]
  rfl

/-- What a queue writes, it trusts, exactly when its definition's own timeout is
left out or below 10^15 ms, or its schema stores nothing at all. -/
theorem defineQueue_trusting {input : QueueInput V}
    (accepted : defineQueue json calendar input = .ok d) :
    Trusting json calendar d ↔ d.Fits ∨ ∀ data, ¬ Stores json d.schema data := by
  constructor
  · intro trusting
    by_cases some : ∃ data, Stores json d.schema data
    · obtain ⟨data, stored⟩ := some
      exact Or.inl (fits_of_trusting stored trusting)
    · exact Or.inr (not_exists.mp some)
  · rintro (fits | none)
    · exact trusting_of_fits fits
    · exact trusting_of_none accepted none

/-! The queue `slow`: a timeout of 10^15 ms and a payload that is always `null`. -/

def nullSchema : Schema Unit := ⟨fun _ => .ok ()⟩

def nullJson : Json Unit := ⟨fun _ => some "null", fun _ => ()⟩

/-- No cron is read, as no schedule has one. -/
def noCalendar : Calendar := ⟨fun _ => .ok (), fun _ => .ok (), fun _ _ now => now + 1⟩

def slowInput : QueueInput Unit :=
  { name := .string (.ofText "slow")
    schema := some nullSchema
    timeout := .number (.ofNat (10 ^ 15)) }

def slow : QueueDefinition Unit where
  name := .ofText "slow"
  schema := nullSchema
  result := none
  attempts := Defaults.attempts
  backoff := ⟨Defaults.backoffBase, Defaults.backoffMax, by decide⟩
  lease := ⟨30000, by decide⟩
  keepCompleted := .kept Defaults.keepCompletedAge Defaults.keepCompletedCount
  keepFailed := Defaults.keepFailed
  timeout := some ⟨10 ^ 15, by decide⟩
  rateLimit := none
  groups := none
  schedules := []

theorem defineQueue_slow : defineQueue nullJson noCalendar slowInput = .ok slow := rfl

/-- The schedule of `slow` fires a job that its next claim fails as `INVALID`. -/
theorem slow_refuses : defineQueue nullJson noCalendar slowInput = .ok slow ∧
    ¬ Trusting nullJson noCalendar slow ∧ ∃ calls,
      Serves nullJson noCalendar slow calls ∧
      (log slow.groupArgs calls).flatMap (fun e => e.2.invalid) = ["schedule:tick:1000"] := by
  have stored : Stores nullJson slow.schema "null" := ⟨(), (), rfl, rfl, (), rfl⟩
  refine ⟨defineQueue_slow, fun trusting => ?_,
    tickRun slow noCalendar "null" ++ [(1000000, .claim 30000 none ["t"])], ?_, ?_⟩
  · have fits := fits_of_trusting stored trusting _ rfl
    exact absurd fits (by decide)
  · intro c mem
    rcases List.mem_append.mp mem with mem | mem
    · exact tickRun_serves stored c mem
    · rw [List.mem_singleton.mp mem]
      trivial
  · decide

/-- Without its timeout the queue trusts all it writes. -/
theorem defineQueue_trusting_quick :
    Trusting nullJson noCalendar { slow with timeout := none } := by
  have accepted : defineQueue nullJson noCalendar { slowInput with timeout := .undefined } =
      .ok { slow with timeout := none } := rfl
  refine (defineQueue_trusting accepted).mpr (Or.inl fun t none => ?_)
  cases none

end NxgtData.Queue
