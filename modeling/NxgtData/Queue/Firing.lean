import NxgtData.Queue.Frames

/-!
A schedule fires each occurrence once and never early. `schedules` scores a
schedule with its next occurrence, and `FIRE` and `DEFER` act only on a caller
that names that score and only to raise it, so the workers that see one due row
race for one occurrence, whatever they compute as the next.
-/
namespace NxgtData.Queue
open Decimal

variable {m : GroupArgs} {q : Keys} {s : String} {now : Nat}

/-- The score of a schedule: the ms of its next occurrence. -/
def Keys.due (q : Keys) (s : String) : Option Nat := q.schedules.score s

theorem Keys.due_of_timetable {q' : Keys} (same : q'.timetable = q.timetable) (s : String) :
    q'.due s = q.due s := by
  unfold Keys.due
  rw [show q'.schedules = q.schedules from congrArg Prod.fst same]

/-- `ZADD schedules next id`. -/
theorem due_add {q' : Keys} {next : Nat} {id : String}
    (schedules : q'.schedules = q.schedules.add next id) (s : String) :
    q'.due s = if s = id then some next else q.due s := by
  unfold Keys.due
  rw [schedules, SortedSet.score_add]

/-- A job under an id that is free is added with the hash of its arguments. -/
theorem addJob_written (now : Nat) (paused : Bool) {j : NewJob} (free : q.job j.id = none) :
    (addJob m now paused j q).1 = true ∧
      (addJob m now paused j q).2.job = Function.update q.job j.id (some (j.hash m now)) := by
  unfold addJob
  rw [if_neg (by simp [free])]
  generalize (if m.grouped then j.group else "") = g
  dsimp only
  split
  next =>
    refine ⟨rfl, ?_⟩
    simp only [apply_ite Keys.toBoard, Keys.poke_toBoard, ite_self]
    rfl
  next =>
    refine ⟨rfl, ?_⟩
    simp only [apply_ite Keys.toBoard, Keys.poke_toBoard, ite_self]
    rfl

/-- A job is added under an id that is free, and otherwise nothing happens. -/
theorem addJob_cases (now : Nat) (paused : Bool) (j : NewJob) :
    ((addJob m now paused j q).1 = true ∧ q.job j.id = none ∧
      ((addJob m now paused j q).2.job j.id).isSome) ∨
    addJob m now paused j q = (false, q) := by
  cases taken : q.job j.id with
  | some h =>
      right
      simp [addJob, taken]
  | none =>
      left
      obtain ⟨added, written⟩ := addJob_written (m := m) now paused taken
      rw [written]
      exact ⟨added, rfl, by simp⟩

/-- A sound schedule that is due fires its occurrence, when that is free. -/
theorem fire_written (due next attempts : Nat) (timeout : Int) (later : due < next)
    (score : q.due s = some due) (time : due ≤ now)
    (trusted : scheduleSound (q.scheduleHash s) = true) (free : q.job (occurrence s due) = none) :
    ∃ data, (fire m now s due next attempts timeout q).2.job =
      Function.update q.job (occurrence s due)
        (some ((occurrenceJob s due attempts timeout data).hash m now)) := by
  refine ⟨(q.scheduleHash s).data.getD "", ?_⟩
  have written := (addJob_written (m := m) now q.paused
    (j := occurrenceJob s due attempts timeout ((q.scheduleHash s).data.getD "")) free).2
  unfold Keys.due at score
  unfold fire
  rw [if_neg (not_not.mpr later), if_neg (not_not.mpr score), if_neg (by omega)]
  dsimp only
  rw [trusted]
  exact written

/-- What one `FIRE` of a schedule does, by its answer. -/
inductive Fired (now : Nat) (s : String) (due next : Nat) (q : Keys) : Except String Bool →
    Keys → Prop where
  /-- The occurrence's job is added, and the schedule moves on. -/
  | added {q'} (time : due ≤ now) (score : q.due s = some due) (later : due < next)
      (free : q.job (occurrence s due) = none) (job : (q'.job (occurrence s due)).isSome)
      (moved : q'.schedules = q.schedules.add next s) : Fired now s due next q (.ok true) q'
  /-- The occurrence's job is there already, and the schedule moves on. -/
  | existed {q'} (time : due ≤ now) (score : q.due s = some due) (later : due < next)
      (job : q'.job = q.job) (moved : q'.schedules = q.schedules.add next s) :
      Fired now s due next q (.ok false) q'
  | nothing {r} (refused : r ≠ .ok true) : Fired now s due next q r q

theorem fire_fired (now due next attempts : Nat) (timeout : Int) :
    Fired now s due next q (fire m now s due next attempts timeout q).1
      (fire m now s due next attempts timeout q).2 := by
  unfold fire
  split
  next => exact .nothing (by simp)
  next later =>
    split
    next => exact .nothing (by simp)
    next score =>
      split
      next => exact .nothing (by simp)
      next time =>
        dsimp only
        split
        next => exact .nothing (by simp)
        next =>
          let j := occurrenceJob s due attempts timeout ((q.scheduleHash s).data.getD "")
          have kept := addJob_keeps (m := m) (q := q) unworking_timetable now q.paused j
          have schedules : (addJob m now q.paused j q).2.schedules = q.schedules :=
            congrArg Prod.fst kept
          rcases addJob_cases (m := m) (q := q) now q.paused j with
            ⟨added, free, job⟩ | same
          · rw [show (addJob m now q.paused (occurrenceJob s due attempts timeout
              ((q.scheduleHash s).data.getD "")) q).1 = true from added]
            exact .added (by omega) (not_not.mp score) (by omega) free job
              (congrArg (SortedSet.add next s) schedules)
          · rw [show addJob m now q.paused (occurrenceJob s due attempts timeout
              ((q.scheduleHash s).data.getD "")) q = (false, q) from same]
            exact .existed (by omega) (not_not.mp score) (by omega) rfl rfl

theorem defer_cases (due untl : Nat) :
    ((defer s due untl q).1 = .ok true ∧ q.due s = some due ∧ due < untl ∧
      (defer s due untl q).2.schedules = q.schedules.add untl s) ∨
    ((defer s due untl q).1 ≠ .ok true ∧ (defer s due untl q).2 = q) := by
  unfold defer
  split
  next => exact Or.inr ⟨by simp, rfl⟩
  next later =>
    split
    next => exact Or.inr ⟨by simp, rfl⟩
    next score =>
      split
      next => exact Or.inr ⟨by simp, rfl⟩
      next => exact Or.inl ⟨rfl, not_not.mp score, by omega, rfl⟩

/-- What a run leaves out while a schedule is watched: an `UPSERT` or an
`UNSCHEDULE` of it, and a `SYNC` that changes its score. -/
def Call.disturbs (s : String) (c : Call) (q : Keys) : Prop :=
  match c with
  | .upsert x => x.id = s
  | .unschedule id => id = s
  | .sync list => (Queue.sync list q).2.due s ≠ q.due s
  | _ => False

/-- No call of the run disturbs the schedule where the run reaches it. -/
def Undisturbed (m : GroupArgs) (s : String) (calls : List Timed) (q : Keys) : Prop :=
  ∀ before c later, calls = before ++ c :: later → ¬ c.2.disturbs s (runFrom m before q)

/-- The occurrence of `s` that a call added a job for. -/
def firedDue (s : String) : Timed × Reply → Option Nat
  | ((_, .fire id due _ _ _), .answer true) => if id = s then some due else none
  | _ => none

/-- One call leaves the schedule's score alone, or raises it; a job is added only
for the score it raises. -/
inductive Advances (s : String) (fired : Option Nat) (q q' : Keys) : Prop where
  | still (same : q'.due s = q.due s) (idle : fired = none)
  | moved {d next} (was : q.due s = some d) (is : q'.due s = some next) (later : d < next)
      (own : ∀ due, fired = some due → due = d)

theorem Advances.of_ne {id : String} {next : Nat} {fired : Option Nat} {q' : Keys} (ne : s ≠ id)
    (moved : q'.schedules = q.schedules.add next id) (idle : fired = none) :
    Advances s fired q q' := by
  refine .still ?_ idle
  rw [due_add moved, if_neg ne]

theorem fire_advances (now us : Nat) (id : String) (due next attempts : Nat) (timeout : Int) :
    Advances s (firedDue s ((us, .fire id due next attempts timeout),
      orError Reply.answer (fire m now id due next attempts timeout q).1)) q
      (fire m now id due next attempts timeout q).2 := by
  have fired := fire_fired (m := m) (q := q) (s := id) now due next attempts timeout
  generalize fire m now id due next attempts timeout q = r at fired
  obtain ⟨answer, q'⟩ := r
  by_cases own : id = s
  · subst own
    cases fired with
    | added time score later free job moved =>
        refine .moved score ((due_add moved id).trans (if_pos rfl)) later fun d eq => ?_
        simpa [firedDue, orError, eq_comm] using eq
    | existed time score later job moved =>
        exact .moved score ((due_add moved id).trans (if_pos rfl)) later (by simp [firedDue, orError])
    | nothing refused =>
        refine .still rfl ?_
        cases answer with
        | error => rfl
        | ok b => cases b <;> simp_all [firedDue, orError]
  · have idle : firedDue s ((us, .fire id due next attempts timeout), orError Reply.answer answer) =
        none := by
      cases answer with
      | error => rfl
      | ok b => cases b <;> simp [firedDue, orError, own]
    cases fired with
    | added _ _ _ _ _ moved | existed _ _ _ _ moved => exact .of_ne (Ne.symm own) moved idle
    | nothing => exact .still rfl idle

theorem exec_advances (us : Nat) (c : Call) (calm : ¬ c.disturbs s q) :
    Advances s (firedDue s ((us, c), (exec m us c q).1)) q (exec m us c q).2 := by
  cases c with
  | fire id due next attempts timeout =>
      simp only [exec, guarded]
      split
      next => exact .still rfl rfl
      next q' marker =>
        have advances := fire_advances (m := m) (q := q') (s := s) (us / 1000) us id due next
          attempts timeout
        have same := Keys.due_of_timetable (marked_keeps unworking_timetable marker) s
        cases advances with
        | still still idle => exact .still (still.trans same) idle
        | moved was is later own => exact .moved (same ▸ was) is later own
  | defer id due untl =>
      rcases defer_cases (q := q) (s := id) due untl with ⟨answer, score, later, moved⟩ | ⟨-, same⟩
      · by_cases own : id = s
        · subst own
          exact .moved score ((due_add moved id).trans (if_pos rfl)) later (by simp [firedDue])
        · exact .of_ne (Ne.symm own) moved rfl
      · exact .still (by rw [show (exec m us (.defer id due untl) q).2 = q from same]) rfl
  | upsert x =>
      have ne : s ≠ x.id := fun eq => calm eq.symm
      simp only [exec, answering, upsert]
      split
      next => exact .still rfl rfl
      next => exact .of_ne ne rfl rfl
  | unschedule id =>
      have ne : s ≠ id := fun eq => calm eq.symm
      simp only [exec, answering, unschedule]
      split
      next => exact .still rfl rfl
      next =>
        refine .still ?_ rfl
        exact (SortedSet.score_rem _ _ _).trans (if_neg ne)
  | sync list => exact .still (not_not.mp calm) rfl
  | _ => exact .still (Keys.due_of_timetable (exec_timetable rfl) s) rfl

/-- The occurrences a run fires are at or past the score it starts from. -/
theorem due_le_fired (calls : List Timed) (calm : Undisturbed m s calls q) {due : Nat}
    (fired : due ∈ (logFrom m calls q).filterMap (firedDue s)) :
    ∃ d, q.due s = some d ∧ d ≤ due := by
  induction calls generalizing q with
  | nil => simp [served] at fired
  | cons c calls ih =>
      have advances := exec_advances (m := m) c.1 c.2 (calm [] c calls rfl)
      have rest := fun fired => ih (q := (step m c q).2)
        (fun before d later eq => calm (c :: before) d later (by rw [eq, List.cons_append])) fired
      simp only [served, List.filterMap_cons] at fired
      cases advances with
      | still same idle =>
          rw [show firedDue s (c, (step m c q).1) = none from idle] at fired
          obtain ⟨d, score, low⟩ := rest fired
          exact ⟨d, same ▸ score, low⟩
      | @moved d next was is later own =>
          refine ⟨d, was, ?_⟩
          split at fired
          next =>
            obtain ⟨d', score, low⟩ := rest fired
            rw [show (step m c q).2.due s = some next from is] at score
            cases score
            omega
          next due' head =>
            rcases List.mem_cons.mp fired with rfl | fired
            · exact (own due head).ge
            · obtain ⟨d', score, low⟩ := rest fired
              rw [show (step m c q).2.due s = some next from is] at score
              cases score
              omega

theorem fired_increasing (calls : List Timed) (calm : Undisturbed m s calls q) :
    ((logFrom m calls q).filterMap (firedDue s)).Pairwise (· < ·) := by
  induction calls generalizing q with
  | nil => exact .nil
  | cons c calls ih =>
      have advances := exec_advances (m := m) c.1 c.2 (calm [] c calls rfl)
      have calmer : Undisturbed m s calls (step m c q).2 :=
        fun before d later eq => calm (c :: before) d later (by rw [eq, List.cons_append])
      simp only [served, List.filterMap_cons]
      split
      next => exact ih calmer
      next due head =>
        refine List.pairwise_cons.mpr ⟨fun due' fired => ?_, ih calmer⟩
        obtain ⟨d', score, low⟩ := due_le_fired calls calmer fired
        cases advances with
        | still _ idle =>
            rw [show firedDue s (c, (step m c q).1) = none from idle] at head
            cases head
        | moved was is later own =>
            rw [show (step m c q).2.due s = _ from is] at score
            cases score
            have first := own due head
            omega

/-- What one `FIRE` of `s` answers is what it did. -/
theorem exec_fire {us due next attempts : Nat} {timeout : Int} :
    let r := exec m us (.fire s due next attempts timeout) q
    (r.1 = .answer true → due ≤ us / 1000 ∧ q.due s = some due ∧ due < next ∧
      r.2.due s = some next ∧ q.job (occurrence s due) = none ∧
      (r.2.job (occurrence s due)).isSome) ∧
    (r.1 ≠ .answer true → r.2.job = q.job) := by
  intro r
  by_cases marker : ∃ q', q.groupModeCheck m = some q'
  · obtain ⟨q', marker⟩ := marker
    have same := Keys.due_of_timetable (marked_keeps unworking_timetable marker) s
    have jobs : q'.job = q.job := congrArg Board.job (groupModeCheck_toBoard marker).1
    have fired := fire_fired (m := m) (q := q') (s := s) (us / 1000) due next attempts
      timeout
    have runs : r = answering (orError .answer) (fire m (us / 1000) s due next attempts timeout q') := by
      simp only [r, exec, guarded, marker]
    rw [runs]
    generalize fire m (us / 1000) s due next attempts timeout q' = f at fired
    obtain ⟨answer, q''⟩ := f
    rw [← same, ← jobs]
    cases fired with
    | added time score later free job moved =>
        refine ⟨fun _ => ⟨time, score, later, (due_add moved s).trans (if_pos rfl), free, job⟩, ?_⟩
        exact fun other => absurd rfl other
    | existed time score later job moved => exact ⟨by simp [answering, orError], fun _ => job⟩
    | nothing refused =>
        refine ⟨fun yes => absurd ?_ refused, fun _ => rfl⟩
        cases answer with
        | error => cases yes
        | ok b => cases b <;> simp_all [answering, orError]
  · have refused : q.groupModeCheck m = none := by
      cases h : q.groupModeCheck m with
      | none => rfl
      | some q' => exact absurd ⟨q', h⟩ marker
    have same : r = (.error mismatch, q) := by simp only [r, exec, guarded, refused]
    rw [same]
    exact ⟨by simp, fun _ => rfl⟩

/-- While no one rewrites the schedule, whoever fires it and with whatever next:
each score leads to one job at most, added only once its time has come and only
with the schedule moved on, and every step that moves the schedule raises it. -/
theorem run_fires (m : GroupArgs) (s : String) (q : Keys) (calls : List Timed)
    (calm : Undisturbed m s calls q) :
    (∀ due, ((logFrom m calls q).filterMap (firedDue s)).count due ≤ 1) ∧
    ∀ before c later, calls = before ++ c :: later →
      let was := runFrom m before q
      let r := step m c was
      (r.2.due s = was.due s ∨
        ∃ d next, was.due s = some d ∧ r.2.due s = some next ∧ d < next) ∧
      (∀ due next attempts timeout, c.2 = .fire s due next attempts timeout →
        (r.1 = .answer true → due ≤ c.1 / 1000 ∧ was.due s = some due ∧ due < next ∧
          r.2.due s = some next ∧ was.job (occurrence s due) = none ∧
          (r.2.job (occurrence s due)).isSome) ∧
        (r.1 ≠ .answer true → r.2.job = was.job)) ∧
      ∀ due untl, c.2 = .defer s due untl → r.1 = .answer true →
        was.due s = some due ∧ due < untl ∧ r.2.due s = some untl := by
  constructor
  · intro due
    exact List.nodup_iff_count_le_one.mp
      ((fired_increasing calls calm).imp fun lt => Nat.ne_of_lt lt) due
  · intro before c later eq
    refine ⟨?_, ?_, ?_⟩
    · cases exec_advances (m := m) c.1 c.2 (calm before c later eq) with
      | still same => exact Or.inl same
      | moved was is later => exact Or.inr ⟨_, _, was, is, later⟩
    · obtain ⟨us, c⟩ := c
      rintro due next attempts timeout rfl
      exact exec_fire
    · obtain ⟨us, c⟩ := c
      rintro due untl rfl answer
      rcases defer_cases (q := runFrom m before q) (s := s) due untl with
        ⟨-, score, later, moved⟩ | ⟨no, -⟩
      · exact ⟨score, later, (due_add moved s).trans (if_pos rfl)⟩
      · simp only [step, exec, answering] at answer
        cases result : (defer s due untl (runFrom m before q)).1 with
        | error => rw [result] at answer; cases answer
        | ok b => cases b <;> simp_all [orError]

/-- Two workers that claimed the same row, each with a next of its own. -/
def twoFires : List Timed :=
  [(5000000, .fire "s" 4000 6000 1 (-1)), (5000000, .fire "s" 4000 9000 1 (-1))]

theorem run_fires_twoFires :
    ((logFrom ⟨false, 0⟩ twoFires (run ⟨false, 0⟩
      [(0, .upsert ⟨"s", "every", "1000", "", "null", 4000⟩)])).filterMap (firedDue "s")).count 4000
      ≤ 1 := by
  refine (run_fires ⟨false, 0⟩ "s" _ twoFires ?_).1 4000
  intro before c later eq
  have mem : c ∈ twoFires := by simp [eq]
  simp only [twoFires, List.mem_cons, List.not_mem_nil, or_false] at mem
  rcases mem with rfl | rfl <;> exact id

end NxgtData.Queue
