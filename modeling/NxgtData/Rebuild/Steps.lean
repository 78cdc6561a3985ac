import Mathlib.Data.List.Induction
import NxgtData.Rebuild.Shape

/-!
What each answer and each failure makes of a rebuild: the server's log stays sound, and keeps
the shape of the point the rebuild has come to.
-/
namespace NxgtData.Rebuild
open TaskLog

variable {S F D : Type} {s : Setup S F D}

/-- The server's side: the indexes are what the log has made of them, and uids grow. -/
structure Sound (s : Setup S F D) (indexes : Indexes S D) (log : Log S F D) (count : Nat) :
    Prop where
  ran : Ran (perform s.engine) log s.indexes indexes
  le : s.count ≤ count
  known : ∀ t ∈ log, s.count ≤ t.uid ∧ t.uid < count
  ordered : (log.map (·.uid)).Pairwise (· < ·)

section Sound
variable {indexes indexes' : Indexes S D} {log log' : Log S F D} {count : Nat}
  {sync : Sync F} {flight : List (Kind S F D)}

theorem Sound.advances (h : Sound s indexes log count) (adv : List.Forall₂ Advances log log')
    (ran : Ran (perform s.engine) log' s.indexes indexes') : Sound s indexes' log' count where
  ran := ran
  le := h.le
  known := advances_forall (P := fun uid _ => s.count ≤ uid ∧ uid < count) adv h.known
  ordered := (advances_uids adv).symm ▸ h.ordered

theorem Sound.enqueue (h : Sound s indexes log count) (kind : Kind S F D) :
    Sound s indexes (enqueue count kind log) (count + 1) where
  ran := ran_enqueue h.ran count kind
  le := by have := h.le; omega
  known := by
    intro t mem
    cases List.mem_append.mp mem with
    | inl mem => have := h.known t mem; omega
    | inr mem =>
        have := h.le
        rw [List.mem_singleton.mp mem]
        dsimp only
        omega
  ordered := by
    rw [TaskLog.enqueue, List.map_append, List.pairwise_append]
    refine ⟨h.ordered, List.pairwise_singleton _ _, ?_⟩
    intro a mem b mem'
    obtain ⟨t, there, rfl⟩ := List.mem_map.mp mem
    rw [List.mem_singleton.mp mem']
    exact (h.known t there).2

theorem Sound.others (h : Sound s indexes log count) : Sound s indexes log (count + 1) where
  ran := h.ran
  le := by have := h.le; omega
  known := fun t mem => by have := h.known t mem; omega
  ordered := h.ordered

/-- The task waited for is the one at the end of the log. -/
theorem Sound.find_snoc {P : Log S F D} {t task : Task (Kind S F D) Code}
    (h : Sound s indexes (P ++ [t]) count) (found : find t.uid (P ++ [t]) = some task) :
    task = t := by
  have before : ∀ u ∈ P, u.uid ≠ t.uid := by
    intro u mem same
    have ordered := h.ordered
    rw [List.map_append, List.pairwise_append] at ordered
    have := ordered.2.2 u.uid (List.mem_map_of_mem mem) t.uid (by simp)
    omega
  rw [find_append before] at found
  exact (Option.some.inj found).symm

theorem Unswapped.live (h : Unswapped s log) (apart : s.nextUid ≠ s.uid)
    (ran : Ran (perform s.engine) log s.indexes indexes) : indexes s.uid = s.indexes s.uid := by
  refine ran.keeps (fun indexes => indexes s.uid) fun t mem succeeded a b done => ?_
  cases h t mem with
  | inl on => exact perform_other s.engine on apart.symm done
  | inr other => exact absurd succeeded other.2

theorem Cleared.missing (h : Cleared s log) (ran : Ran (perform s.engine) log s.indexes indexes) :
    indexes s.nextUid = none := by
  cases h with
  | inl none =>
      obtain ⟨rfl, missing⟩ := none
      rw [show indexes = s.indexes from ran]
      exact missing
  | inr deleted =>
      obtain ⟨u, rfl⟩ := deleted
      obtain ⟨m, done, is⟩ := ran
      rw [show indexes = m from is]
      exact perform_deletion s.engine done

theorem Created.there (h : Created s sync log)
    (ran : Ran (perform s.engine) log s.indexes indexes) :
    indexes s.nextUid = some (s.engine.born (some s.primaryKey)) := by
  obtain ⟨L, u, cleared, rfl, -⟩ := h
  obtain ⟨m, -, m', done, is⟩ := (ran_append cleared.succeeded.settled).mp ran
  rw [show indexes = m' from is]
  exact perform_creation s.engine done

end Sound

/-- A rebuild at one point of its run. -/
structure Inv (s : Setup S F D) (w : World S F D) : Prop where
  sound : Sound s w.indexes w.log w.count
  apart : s.nextUid ≠ s.uid ∨ w.phase = .done .invalid
  shape : Shape s w.sync w.log w.flight w.phase

variable {w : World S F D}

/-- Where a part of the program leaves the rebuild: the server as it was, at a new point. -/
structure Goes (s : Setup S F D) (w w' : World S F D) : Prop where
  indexes : w'.indexes = w.indexes
  log : w'.log = w.log
  count : w'.count = w.count
  shape : Shape s w'.sync w.log w'.flight w'.phase

theorem Goes.inv {w' : World S F D} (goes : Goes s w w')
    (sound : Sound s w.indexes w.log w.count) (apart : s.nextUid ≠ s.uid) : Inv s w' where
  sound := by rw [goes.indexes, goes.log, goes.count]; exact sound
  apart := .inl apart
  shape := goes.log ▸ goes.shape

theorem goes_to {phase : Phase F} (shape : Shape s w.sync w.log w.flight phase) :
    Goes s w (w.go phase) := ⟨rfl, rfl, rfl, shape⟩

theorem goes_stop {stop : Stop} (known : stop ≠ .unknown) (quiet : Quiet s w.log w.flight) :
    Goes s w (w.stop stop) := goes_to ⟨known, quiet⟩

theorem Created.push {sync : Sync F} {log : Log S F D} (h : Created s sync log) (u : Nat) :
    Created s { sync with tasks := sync.tasks ++ [u] } log := by
  obtain ⟨L, first, cleared, rfl, head⟩ := h
  refine ⟨L, first, cleared, rfl, ?_⟩
  rw [List.head?_append, head]
  rfl

/-- The newest of the tasks that ended otherwise is no older than any of this run. -/
theorem newest_le {indexes : Indexes S D} {count : Nat}
    (sound : Sound s indexes w.log count) {p : Status Code → Bool}
    {newest t : Task (Kind S F D) Code} {rest : Log S F D}
    (is : w.tasksOf s p = newest :: rest) (mem : t ∈ w.log)
    (on : t.kind.indexUid = some s.nextUid) (holds : p t.status = true) : t.uid ≤ newest.uid := by
  rw [World.tasksOf, List.reverse_append, List.filter_append] at is
  have listed : t ∈ w.log.reverse.filter fun t => t.kind.indexUid = some s.nextUid ∧ p t.status :=
    List.mem_filter.mpr ⟨List.mem_reverse.mpr mem, by simp [on, holds]⟩
  have falling : (w.log.reverse.filter fun t =>
      t.kind.indexUid = some s.nextUid ∧ p t.status).Pairwise (·.uid > ·.uid) :=
    (List.pairwise_reverse.mpr (List.pairwise_map.mp sound.ordered)).filter _
  cases own : w.log.reverse.filter fun t => t.kind.indexUid = some s.nextUid ∧ p t.status with
  | nil => rw [own] at listed; exact absurd listed List.not_mem_nil
  | cons first others =>
      rw [own] at is listed falling
      rw [List.cons_append, List.cons.injEq] at is
      obtain ⟨rfl, -⟩ := is
      cases listed with
      | head => exact le_rfl
      | tail _ mem => exact Nat.le_of_lt (List.rel_of_pairwise_cons falling mem)

/-- What no list of pending tasks names has ended. -/
theorem settled_of_pending (filling : Filling s w.sync w.log)
    (is : (w.tasksOf s fun status => status = .enqueued).take 1000 = []) : Settled w.log := by
  intro t mem enqueued
  have none : w.tasksOf s (fun status => status = .enqueued) = [] := by
    cases List.take_eq_nil_iff.mp is with
    | inl zero => exact absurd zero (by decide)
    | inr none => exact none
  have listed : t ∈ w.tasksOf s fun status => status = .enqueued := by
    refine List.mem_filter.mpr ⟨?_, by simp [filling.onNext t mem, enqueued]⟩
    exact List.mem_reverse.mpr (List.mem_append_right _ mem)
  rw [none] at listed
  exact absurd listed List.not_mem_nil

/-- When the newest failure is older than the creation, no task of the run has failed. -/
theorem whole_of_newest {indexes : Indexes S D} {count : Nat}
    (sound : Sound s indexes w.log count) (filling : Filling s w.sync w.log)
    (settled : Settled w.log)
    (old : ∀ newest rest, w.tasksOf s (fun status => status ≠ .enqueued ∧ status ≠ .succeeded) =
      newest :: rest → newest.uid ≤ w.sync.tasks.head?.getD 0) : Whole s w.sync w.log := by
  refine ⟨filling, fun t mem => ?_⟩
  refine Decidable.byContradiction fun other => ?_
  have on := filling.onNext t mem
  have ended := settled t mem
  have listed : t ∈ w.tasksOf s fun status => status ≠ .enqueued ∧ status ≠ .succeeded :=
    List.mem_filter.mpr
      ⟨List.mem_reverse.mpr (List.mem_append_right _ mem), by simp [on, ended, other]⟩
  obtain ⟨P, B, created, split, fills⟩ := filling
  have later : t ∈ B := by
    rw [split] at mem
    cases List.mem_append.mp mem with
    | inl before => exact absurd (created.succeeded t before) other
    | inr after => exact after
  obtain ⟨L, u, -, rfl, head⟩ := created
  have ordered := sound.ordered
  rw [split, List.map_append, List.pairwise_append] at ordered
  have after := ordered.2.2 u (by simp) t.uid (List.mem_map_of_mem later)
  cases is : w.tasksOf s fun status => status ≠ .enqueued ∧ status ≠ .succeeded with
  | nil => rw [is] at listed; exact absurd listed List.not_mem_nil
  | cons newest rest =>
      have below := newest_le sound is mem on (by simp [ended, other])
      have first := old newest rest is
      rw [head, Option.getD_some] at first
      omega

/-- Every answer to a read takes the rebuild on. -/
theorem goes_answered (sound : Sound s w.indexes w.log w.count) (apart : s.nextUid ≠ s.uid)
    {read : Read} (h : Shape s w.sync w.log w.flight (.read read)) :
    Goes s w (w.answered s read) := by
  cases read with
  | leftover =>
      obtain ⟨log, flight, tasks⟩ := h
      have ran : Ran (perform s.engine) [] s.indexes w.indexes := log ▸ sound.ran
      rw [World.answered]
      split
      next => exact ⟨rfl, rfl, rfl, log, flight, tasks⟩
      next missing =>
        refine goes_to ⟨.inl ⟨log, ?_⟩, flight, tasks⟩
        rw [← show w.indexes = s.indexes from ran]
        exact missing
  | existing =>
      have missing := h.1.missing sound.ran
      rw [World.answered, missing]
      exact ⟨rfl, rfl, rfl, h⟩
  | again => exact h.elim
  | settings =>
      have there := h.1.there sound.ran
      rw [World.answered, there]
      dsimp only
      split
      next => exact goes_to ⟨h.1.filling, h.2⟩
      next => exact ⟨rfl, rfl, rfl, h⟩
  | pending =>
      rw [World.answered]
      split
      next is => exact goes_to ⟨⟨h.1, settled_of_pending h.1 is⟩, h.2⟩
      next => exact goes_to h
  | failed =>
      obtain ⟨⟨filling, settled⟩, flight⟩ := h
      rw [World.answered]
      split
      next newest rest is =>
        split
        next => exact goes_stop (by simp) (flight ▸ quiet_nil filling.onNext)
        next old =>
          refine goes_to ⟨whole_of_newest sound filling settled fun n r is' => ?_, flight⟩
          rw [is, List.cons.injEq] at is'
          rw [← is'.1]
          omega
      next none =>
        refine goes_to ⟨whole_of_newest sound filling settled fun n r is => ?_, flight⟩
        rw [none] at is
        cases is
  | live =>
      have live := (quiet_nil h.1.1.onNext).unswapped.live apart sound.ran
      exact goes_to ⟨⟨h.1, by rw [live]⟩, h.2⟩

/-- The end of the task waited for takes the rebuild on. -/
theorem goes_ended (sound : Sound s w.indexes w.log w.count) {call : Call F} {u : Nat}
    (h : Shape s w.sync w.log w.flight (.wait call u)) {task : Task (Kind S F D) Code}
    (found : find u w.log = some task) (ended : task.status ≠ .enqueued) :
    Goes s w (w.ended call task) := by
  cases call with
  | deleteLeftover =>
      obtain ⟨⟨status, is⟩, flight, tasks⟩ := h
      rw [is] at sound found
      obtain rfl := sound.find_snoc (P := []) found
      rw [World.ended]
      split
      next done =>
        obtain rfl : status = .succeeded := done
        exact goes_to ⟨.inr ⟨u, is⟩, flight, tasks⟩
      next => 
        refine goes_to (.inl (is ▸ flight ▸ quiet_nil fun t mem => ?_))
        rw [List.mem_singleton.mp mem]
        rfl
  | createIndex =>
      obtain ⟨⟨L, status, cleared, is⟩, flight, tasks⟩ := h
      rw [is] at sound found
      obtain rfl := sound.find_snoc found
      have quiet : Quiet s w.log w.flight :=
        is ▸ flight ▸ (quiet_nil cleared.onNext).snoc (.inl rfl)
      rw [World.ended]
      split
      next second =>
        -- Nothing is under the next uid when the creation is run.
        obtain rfl : status = .failed (some .indexAlreadyExists) := second
        obtain ⟨m, before, refused, -⟩ := (ran_append cleared.succeeded.settled).mp sound.ran
        exact absurd refused (creation_missing s.engine (cleared.missing before))
      next =>
        split
        next done =>
          obtain rfl : status = .succeeded := done
          refine ⟨rfl, rfl, rfl, ⟨L, u, cleared, is, ?_⟩, flight⟩
          change (w.sync.tasks ++ [u]).head? = some u
          rw [tasks]
          rfl
        next => exact ⟨rfl, rfl, rfl, by simp, quiet⟩
  | updateIndex => exact h.elim
  | updateSettings update =>
      obtain ⟨⟨P, status, created, is⟩, flight⟩ := h
      rw [is] at sound found
      obtain rfl := sound.find_snoc found
      have filling : Filling s w.sync w.log :=
        is ▸ created.filling.snoc (.inl ⟨update, rfl⟩)
      rw [World.ended]
      split
      next =>
        obtain ⟨P, B, created, split, fills⟩ := filling
        exact ⟨rfl, rfl, rfl, ⟨P, B, created.push u, split, fills⟩, flight⟩
      next => exact ⟨rfl, rfl, rfl, by simp, flight ▸ quiet_nil filling.onNext⟩
  | swapIndexes created =>
      obtain ⟨⟨W, status, whole, first, is⟩, flight⟩ := h
      rw [is] at sound found
      obtain rfl := sound.find_snoc found
      rw [World.ended]
      split
      next done =>
        obtain rfl : status = .succeeded := done
        have swapped : Swapped s w.sync created w.log [] := ⟨W, u, whole, first, is⟩
        split
        next created_ =>
          obtain rfl : created = true := created_
          exact goes_to ⟨.inl swapped, flight⟩
        next existed =>
          obtain rfl : created = false := Bool.eq_false_iff.mpr existed
          exact goes_to ⟨swapped, flight⟩
      next failed =>
        refine goes_stop (by simp) ?_
        rw [is, flight]
        exact (quiet_nil whole.1.onNext).snoc (.inr ⟨⟨created, rfl⟩, ended, failed⟩)
  | deletePrevious swap =>
      obtain ⟨⟨status, swapped⟩, flight⟩ := h
      obtain ⟨W, v, whole, first, is⟩ := swapped
      rw [show ∀ a b, W ++ a :: [b] = (W ++ [a]) ++ [b] by simp] at is
      rw [is] at sound found
      obtain rfl := sound.find_snoc found
      rw [List.append_assoc] at is
      rw [World.ended]
      split
      next done =>
        obtain rfl : status = .succeeded := done
        exact goes_to ⟨.inr ⟨u, W, v, whole, first, is⟩, flight⟩
      next =>
        refine goes_to (.inr ⟨_, ⟨W, v, whole, first, is⟩, fun t mem => ?_, ?_⟩)
        · rw [List.mem_singleton.mp mem]
        · rw [flight]
          exact fun _ mem => absurd mem List.not_mem_nil
  | discard stop =>
      rw [World.ended]
      refine goes_to ?_
      cases stop with
      | unknown => exact absurd rfl h.1
      | creating | filling | swapping => exact h.2

/-- A wait that fails leaves the task as it is. -/
theorem goes_lost {call : Call F} {u : Nat} (h : Shape s w.sync w.log w.flight (.wait call u)) :
    Goes s w (w.lost call) := by
  cases call with
  | deleteLeftover =>
      obtain ⟨⟨status, is⟩, flight, -⟩ := h
      refine goes_to (.inl (is ▸ flight ▸ quiet_nil fun t mem => ?_))
      rw [List.mem_singleton.mp mem]
      rfl
  | createIndex =>
      obtain ⟨⟨L, status, cleared, is⟩, flight, -⟩ := h
      exact goes_stop (by simp) (is ▸ flight ▸ (quiet_nil cleared.onNext).snoc (.inl rfl))
  | updateIndex => exact h.elim
  | updateSettings update =>
      obtain ⟨⟨P, status, created, is⟩, flight⟩ := h
      exact goes_stop (by simp) (is ▸ flight ▸ (quiet_nil created.onNext).snoc (.inl rfl))
  | swapIndexes created =>
      obtain ⟨⟨W, status, whole, first, is⟩, flight⟩ := h
      exact goes_to ⟨W, created, whole, first, .inr ⟨⟨u, status, is⟩, flight⟩⟩
  | deletePrevious swap =>
      obtain ⟨⟨status, swapped⟩, flight⟩ := h
      refine goes_to (.inr ⟨_, swapped, fun t mem => ?_, ?_⟩)
      · rw [List.mem_singleton.mp mem]
      · rw [flight]
        exact fun _ mem => absurd mem List.not_mem_nil
  | discard stop =>
      refine goes_to ?_
      cases stop with
      | unknown => exact absurd rfl h.1
      | creating | filling | swapping => exact h.2

/-- A request that fails may be on its way. -/
theorem goes_unsent {call : Call F} (h : Shape s w.sync w.log w.flight (.send call)) :
    Goes s w ({ w with flight := w.flight ++ [call.kind s] }.lost call) := by
  have goes {w' : World S F D} (indexes : w'.indexes = w.indexes) (log : w'.log = w.log)
      (count : w'.count = w.count) (shape : Shape s w'.sync w.log w'.flight w'.phase) :
      Goes s w w' := ⟨indexes, log, count, shape⟩
  cases call with
  | deleteLeftover =>
      obtain ⟨log, flight, -⟩ := h
      refine goes rfl rfl rfl (.inl (Quiet.lose ?_ rfl))
      rw [log, flight]
      exact quiet_nil fun _ mem => absurd mem List.not_mem_nil
  | createIndex =>
      obtain ⟨cleared, flight, -⟩ := h
      exact goes rfl rfl rfl ⟨by simp, (flight ▸ quiet_nil cleared.onNext).lose rfl⟩
  | updateIndex => exact h.elim
  | updateSettings update =>
      exact goes rfl rfl rfl ⟨by simp, (h.2 ▸ quiet_nil h.1.onNext).lose rfl⟩
  | swapIndexes created =>
      obtain ⟨⟨whole, first⟩, flight⟩ := h
      refine goes rfl rfl rfl ⟨w.log, created, whole, first, .inl ⟨rfl, ?_⟩⟩
      change w.flight ++ [swapOf s created] = [swapOf s created]
      rw [flight]
      rfl
  | deletePrevious swap =>
      refine goes rfl rfl rfl (.inr ⟨[], h.1, fun _ mem => absurd mem List.not_mem_nil, ?_⟩)
      change ∀ kind ∈ w.flight ++ [Kind.indexDeletion s.nextUid], _
      rw [h.2]
      intro kind mem
      exact List.mem_singleton.mp mem
  | discard stop =>
      refine goes rfl rfl rfl ?_
      have quiet := @Quiet.lose _ _ _ s _ _ h.2 (.indexDeletion s.nextUid) rfl
      cases stop with
      | unknown => exact absurd rfl h.1
      | creating | filling | swapping => exact quiet

theorem goes_unread {read : Read} (h : Shape s w.sync w.log w.flight (.read read)) :
    Goes s w (w.unread read) := by
  cases read with
  | leftover =>
      obtain ⟨log, flight, -⟩ := h
      refine goes_to (.inl ?_)
      rw [log, flight]
      exact quiet_nil fun _ mem => absurd mem List.not_mem_nil
  | existing => exact goes_stop (by simp) (h.2.1 ▸ quiet_nil h.1.onNext)
  | again => exact h.elim
  | settings => exact goes_stop (by simp) (h.2 ▸ quiet_nil h.1.onNext)
  | pending => exact goes_stop (by simp) (h.2 ▸ quiet_nil h.1.onNext)
  | failed => exact goes_stop (by simp) (h.2 ▸ quiet_nil h.1.1.onNext)
  | live => exact goes_stop (by simp) (h.2 ▸ quiet_nil h.1.1.onNext)

/-- A request that is accepted leaves its task at the end of the log. -/
theorem shape_sent {sync : Sync F} {log : Log S F D} {flight : List (Kind S F D)} {call : Call F}
    (h : Shape s sync log flight (.send call)) (u : Nat) :
    Shape s sync (enqueue u (call.kind s) log) flight (.wait call u) := by
  cases call with
  | deleteLeftover =>
      obtain ⟨rfl, rest⟩ := h
      exact ⟨⟨_, rfl⟩, rest⟩
  | createIndex => exact ⟨⟨log, _, h.1, rfl⟩, h.2⟩
  | updateIndex => exact h
  | updateSettings update => exact ⟨⟨log, _, h.1, rfl⟩, h.2⟩
  | swapIndexes created => exact ⟨⟨log, _, h.1.1, h.1.2, rfl⟩, h.2⟩
  | deletePrevious swap =>
      obtain ⟨⟨W, v, whole, first, rfl⟩, flight⟩ := h
      exact ⟨⟨_, W, v, whole, first, List.append_assoc ..⟩, flight⟩
  | discard stop => exact ⟨h.1, h.2.snoc (.inl rfl)⟩

/-- A request that arrives late, once the rebuild is on its way out. -/
theorem shape_arrive {sync : Sync F} {log : Log S F D} {flight : List (Kind S F D)}
    {phase : Phase F} (h : Shape s sync log flight phase) {i : Nat} {kind : Kind S F D}
    (is : flight[i]? = some kind) (u : Nat) :
    Shape s sync (enqueue u kind log) (flight.eraseIdx i) phase := by
  have mem : kind ∈ flight := List.mem_of_getElem? is
  have none : flight ≠ [] := List.ne_nil_of_mem mem
  have quiet (h : Quiet s log flight) : Quiet s (enqueue u kind log) (flight.eraseIdx i) :=
    Quiet.snoc ⟨h.1, fun k mem => h.2 k (List.mem_of_mem_eraseIdx mem)⟩ (.inl (h.2 kind mem))
  cases phase with
  | read read =>
      cases read with
      | leftover | existing => exact absurd h.2.1 none
      | again => exact h
      | settings | pending | failed | live => exact absurd h.2 none
  | send call =>
      cases call with
      | deleteLeftover | createIndex => exact absurd h.2.1 none
      | updateIndex => exact h
      | updateSettings _ | swapIndexes _ | deletePrevious _ => exact absurd h.2 none
      | discard stop => exact ⟨h.1, quiet h.2⟩
  | wait call u =>
      cases call with
      | deleteLeftover | createIndex => exact absurd h.2.1 none
      | updateIndex => exact h
      | updateSettings _ | swapIndexes _ | deletePrevious _ => exact absurd h.2 none
      | discard stop => exact ⟨h.1, quiet h.2⟩
  | filling => exact absurd h.2 none
  | settling uids => exact absurd h.2 none
  | done outcome =>
      cases outcome with
      | invalid => exact absurd h.2 none
      | rejected =>
          cases h with
          | inl quiet_ => exact .inl (quiet quiet_)
          | inr swapped =>
              obtain ⟨rest, ⟨W, v, whole, first, rfl⟩, deletes, flown⟩ := swapped
              refine .inr ⟨rest ++ [⟨u, kind, .enqueued⟩],
                ⟨W, v, whole, first, by simp [enqueue]⟩, fun t mem' => ?_,
                fun k mem => flown k (List.mem_of_mem_eraseIdx mem)⟩
              cases List.mem_append.mp mem' with
              | inl before => exact deletes t before
              | inr last => rw [List.mem_singleton.mp last]; exact flown kind mem
      | stopped stop deleted =>
          cases stop with
          | unknown =>
              obtain ⟨W, created, whole, first, either⟩ := h
              refine ⟨W, created, whole, first, ?_⟩
              cases either with
              | inl unsent =>
                  obtain ⟨rfl, rfl⟩ := unsent
                  obtain rfl := List.mem_singleton.mp mem
                  have zero : i = 0 := by
                    have := (List.getElem?_eq_some_iff.mp is).1
                    simpa using this
                  rw [zero]
                  exact .inr ⟨⟨u, _, rfl⟩, rfl⟩
              | inr sent => exact absurd sent.2 none
          | creating | filling | swapping => exact quiet h
      | resolved report => exact absurd h.2 none

/-- Every step of the server and of the rebuild keeps the invariant. -/
theorem inv_step (h : Inv s w) (act : Act S D) : Inv s (w.step s act) := by
  have apart (busy : ∀ outcome, w.phase ≠ .done outcome) : s.nextUid ≠ s.uid := by
    cases h.apart with
    | inl apart => exact apart
    | inr invalid => exact absurd invalid (busy _)
  cases act with
  | work fault =>
      have adv := advances_work (perform s.engine) fault w.log w.indexes
      exact ⟨h.sound.advances adv (ran_work h.sound.ran fault), h.apart,
        shape_advances s h.shape adv⟩
  | cancel uid =>
      have adv := advances_cancel uid w.log
      exact ⟨h.sound.advances adv (ran_cancel h.sound.ran uid), h.apart,
        shape_advances s h.shape adv⟩
  | others => exact ⟨h.sound.others, h.apart, h.shape⟩
  | arrive i =>
      rw [World.step]
      split
      next kind is => exact ⟨h.sound.enqueue kind, h.apart, shape_arrive h.shape is w.count⟩
      next => exact h
  | answer =>
      rw [World.step]
      have shape := h.shape
      split
      next read phase =>
        have busy := apart (by simp [phase])
        rw [phase] at shape
        exact (goes_answered h.sound busy shape).inv h.sound busy
      next call phase =>
        rw [phase] at shape
        exact ⟨h.sound.enqueue _, .inl (apart (by simp [phase])), shape_sent shape w.count⟩
      next call uid phase =>
        split
        next task found =>
          split
          next => exact h
          next ended =>
            rw [phase] at shape
            exact (goes_ended h.sound shape found ended).inv h.sound (apart (by simp [phase]))
        next => exact h
      next uids phase =>
        rw [phase] at shape
        split
        next =>
          exact (@goes_to _ _ _ s w (.read .pending) shape).inv h.sound (apart (by simp [phase]))
        next => exact h
      next => exact h
      next => exact h
  | fail =>
      rw [World.step]
      have shape := h.shape
      split
      next read phase =>
        rw [phase] at shape
        exact (goes_unread shape).inv h.sound (apart (by simp [phase]))
      next call phase =>
        rw [phase] at shape
        exact (goes_unsent shape).inv h.sound (apart (by simp [phase]))
      next call uid phase =>
        rw [phase] at shape
        exact (goes_lost shape).inv h.sound (apart (by simp [phase]))
      next uids phase =>
        rw [phase] at shape
        have quiet : Quiet s w.log w.flight := shape.2 ▸ quiet_nil shape.1.onNext
        exact (@goes_stop _ _ _ s w .filling (by simp) quiet).inv h.sound (apart (by simp [phase]))
      next => exact h
      next => exact h
  | enqueue effect =>
      rw [World.step]
      split
      next phase =>
        have shape := h.shape
        rw [phase] at shape
        refine ⟨h.sound.enqueue _, h.apart, ?_⟩
        change Shape s w.sync (enqueue w.count (.write s.nextUid effect) w.log) w.flight w.phase
        rw [phase]
        exact ⟨shape.1.snoc (.inr ⟨effect, rfl⟩), shape.2⟩
      next => exact h
  | resolve =>
      rw [World.step]
      split
      next phase =>
        have shape := h.shape
        rw [phase] at shape
        exact (@goes_to _ _ _ s w (.read .pending) shape).inv h.sound (apart (by simp [phase]))
      next => exact h
  | reject =>
      rw [World.step]
      split
      next phase =>
        have shape := h.shape
        rw [phase] at shape
        have quiet : Quiet s w.log w.flight := shape.2 ▸ quiet_nil shape.1.onNext
        exact (@goes_stop _ _ _ s w .filling (by simp) quiet).inv h.sound (apart (by simp [phase]))
      next => exact h

theorem inv_start (s : Setup S F D) : Inv s (start s) where
  sound := ⟨rfl, le_rfl, fun _ mem => absurd mem List.not_mem_nil, List.Pairwise.nil⟩
  apart := by
    rw [start]
    split
    next => exact .inr rfl
    next apart => exact .inl apart
  shape := by
    rw [start]
    split
    next => exact ⟨rfl, rfl⟩
    next =>
      split
      next => exact ⟨rfl, rfl⟩
      next => exact ⟨rfl, rfl, rfl⟩

theorem inv_run (s : Setup S F D) (acts : List (Act S D)) : Inv s (run s acts) := by
  induction acts using List.reverseRecOn with
  | nil => exact inv_start s
  | append_singleton acts act ih =>
      rw [run, List.foldl_append]
      exact inv_step ih act

end NxgtData.Rebuild
