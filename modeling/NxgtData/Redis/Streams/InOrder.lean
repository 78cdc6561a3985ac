import NxgtData.Redis.Streams.Served

/-!
The order of the calls: a call made while the read of an earlier one is woken but has not gone
on takes the message that woke it. Without such a call every iterator's values come in the order
of its calls.
-/
namespace NxgtData.Redis.Streams
open Reader

namespace World

variable {μ : Type} {keyOf : μ → String}

def Orderly (w : World μ) : Prop := ∀ i, (w.iter i).Ordered

section Lemmas
variable {w : World μ}

theorem Orderly.onIter (h : w.Orderly) {i : Nat} {f : Reader μ → Reader μ}
    (ordered : (f (w.iter i)).Ordered) : (w.onIter i f).Orderly := by
  intro j
  by_cases same : j = i
  · rw [same, onIter_self]
    exact ordered
  · rw [onIter_of_ne same]
    exact h j

theorem release_rest (w : World μ) : w.release.iter = w.iter ∧ w.release.made = w.made := by
  unfold World.release
  cases w.opened with
  | none => exact ⟨rfl, rfl⟩
  | some a => cases w.live <;> exact ⟨rfl, rfl⟩

theorem remove_rest (w : World μ) (i : Nat) :
    (w.remove i).iter = w.iter ∧ (w.remove i).made = w.made := by
  unfold World.remove
  dsimp only
  split
  · split
    · exact release_rest _
    · exact ⟨rfl, rfl⟩
  · exact ⟨rfl, rfl⟩

theorem Orderly.leave (h : w.Orderly) (i : Nat) : (w.leave i).Orderly := by
  intro j
  rw [World.leave, (remove_rest _ i).1]
  exact h.onIter (h i).stop j

theorem Orderly.finish (h : w.Orderly) (i : Nat) :
    Orderly (if (w.iter i).stopped then w.leave i else w) := by
  split
  · exact h.leave i
  · exact h

/-- What `start` leaves of an iterator: its calls, and that it has stopped. -/
theorem start_ran (w : World μ) (i : Nat) :
    ((w.start i).iter i).woken = (w.iter i).woken ∧
      ((w.iter i).stopped = true → ((w.start i).iter i).stopped = true) := by
  unfold World.start
  by_cases closed : w.closed = true
  · have stopped : ((w.onIter i Reader.halt).iter i).stopped = true := by
      rw [onIter_self]
      rfl
    simp only [closed, if_true]
    rw [if_pos stopped]
    refine ⟨?_, fun _ => stopped⟩
    rw [onIter_self]
    rfl
  · simp only [closed, Bool.false_eq_true, if_false]
    split
    next stopped => exact ⟨rfl, fun _ => stopped⟩
    next going =>
      refine ⟨?_, fun stopped => absurd stopped going⟩
      rw [(open_rest _).2.1]
      split
      · rfl
      · change (Function.update w.iter i _ i).woken = _
        rw [Function.update_self]

theorem Orderly.start (h : w.Orderly) (i : Nat) : (w.start i).Orderly := by
  intro j
  unfold World.start
  by_cases closed : w.closed = true
  · have stopped : ((w.onIter i Reader.halt).iter i).stopped = true := by
      rw [onIter_self]
      rfl
    simp only [closed, if_true]
    rw [if_pos stopped]
    exact h.onIter (h i).halt j
  · simp only [closed, Bool.false_eq_true, if_false]
    split
    next => exact h j
    next =>
      rw [(open_rest _).2.1]
      split
      · exact h j
      · have ordered : ({ w.iter i with started := true } : Reader μ).Ordered := h i
        exact h.onIter (f := fun r => { r with started := true }) ordered j

theorem enter_ran (w : World μ) (i : Nat) :
    ((w.enter i).iter i).woken = (w.iter i).woken ∧
      ((w.iter i).stopped = true → ((w.enter i).iter i).stopped = true) := by
  unfold World.enter
  split
  · exact start_ran w i
  split
  · rw [onIter_self]
    exact ⟨rfl, fun _ => rfl⟩
  · exact ⟨rfl, id⟩

theorem Orderly.enter (h : w.Orderly) (i : Nat) : (w.enter i).Orderly := by
  unfold World.enter
  split
  · exact h.start i
  split
  · exact h.onIter (h i).halt
  · exact h

theorem Orderly.next (h : w.Orderly) (sound : Sound keyOf w) {i : Nat} (lt : i < w.made)
    (inLine : (w.iter i).woken = [] ∨ (w.iter i).stopped = true) : (w.next i).Orderly := by
  obtain ⟨woken, stops⟩ := enter_ran w i
  have ran : ((w.enter i).iter i).woken = [] ∨ ((w.enter i).iter i).stopped = true := by
    rw [woken]
    exact inLine.imp_right stops
  have entered := h.enter i
  exact (entered.onIter ((entered i).call ((sound.enter lt).1.readers i) ran)).finish i

theorem Orderly.resume (h : w.Orderly) (sound : Sound keyOf w) (i : Nat) :
    (w.resume i).Orderly := by
  unfold World.resume
  split
  · exact h
  · exact (h.onIter ((h i).resume (sound.readers i))).finish i

theorem Orderly.deliver (h : w.Orderly) (m : μ) : (w.deliver keyOf m).Orderly := by
  intro i
  unfold World.deliver
  dsimp only
  split
  · exact (h i).push m
  · exact h i

theorem Orderly.hear (h : w.Orderly) (a : Nat) (m : μ) : (w.hear keyOf a m).Orderly := by
  unfold World.hear
  split
  · exact h.deliver m
  · exact h

theorem Orderly.publish (h : w.Orderly) (m : μ) : (w.publish keyOf m).Orderly := by
  unfold World.publish
  generalize w.up = as
  induction as generalizing w with
  | nil => exact h
  | cons a as ih => exact ih (h.hear a m)

theorem Orderly.close (h : w.Orderly) : w.close.Orderly := by
  intro i
  rw [World.close, (release_rest _).1]
  dsimp only
  split
  · exact (h i).stop
  · exact h i

theorem Orderly.step (h : w.Orderly) (sound : Sound keyOf w) {act : Act μ} (inLine : w.InLine act) :
    (step keyOf w act).Orderly := by
  cases act with
  | stream key limit =>
      intro i
      by_cases same : i = w.made
      · rw [same]
        change (Function.update w.iter w.made _ w.made).Ordered
        rw [Function.update_self]
        exact ordered_made key limit w.closed
      · change (Function.update w.iter w.made _ i).Ordered
        rw [Function.update_of_ne same]
        exact h i
  | next i =>
      rw [World.step]
      split
      next lt => exact h.next sound lt inLine
      next => exact h
  | resume i =>
      rw [World.step]
      split
      next => exact h.resume sound i
      next => exact h
  | ready i =>
      rw [World.step]
      split
      next => exact h.start i
      next => exact h
  | leave i =>
      rw [World.step]
      split
      next => exact h.leave i
      next => exact h
  | close => exact h.close
  | hear a m => exact h.hear a m
  | publish m => exact h.publish m
  | unpublished m =>
      rw [World.step, World.unpublished]
      split
      · exact h.deliver m
      · exact h
  | resolve a =>
      rw [World.step]
      split <;> exact h
  | reject a =>
      rw [World.step]
      split <;> exact h
  | awaited a =>
      rw [World.step]
      split
      · split <;> exact h
      · exact h
  | react a =>
      rw [World.step]
      split
      · split <;> exact h
      · exact h
  | shut a =>
      rw [World.step]
      split <;> exact h

theorem Patient.orderly {acts : List (Act μ)} (patient : Patient keyOf w acts)
    (sound : Sound keyOf w) (h : w.Orderly) : (run keyOf w acts).Orderly := by
  induction acts generalizing w with
  | nil => exact h
  | cons act acts ih =>
      rw [run, List.foldl_cons]
      exact ih patient.2 (sound.step act) (h.step sound patient.1)

theorem Patient.before {done acts : List (Act μ)} (patient : Patient keyOf w acts)
    (le : done <+: acts) : Patient keyOf w done := by
  induction done generalizing w acts with
  | nil => trivial
  | cons act done ih =>
      obtain ⟨later, rfl⟩ := le
      exact ⟨patient.1, ih patient.2 (List.prefix_append done later)⟩

/-! What a message reaches, and the calls of an iterator that has stopped. -/

theorem deliver_heard (w : World μ) (m : μ) (i : Nat) :
    heardOf ((w.deliver keyOf m).iter i).log = heardOf (w.iter i).log ++
      if i ∈ w.listeners ∧ (w.iter i).key = keyOf m then [m] else [] := by
  dsimp only [World.deliver]
  split
  · exact heard_push _ m
  · exact (List.append_nil _).symm

/-- However many subscriptions are open, at most one of them delivers a message. -/
theorem publish_eq (w : World μ) (m : μ) : w.publish keyOf m =
    if ∃ a ∈ w.up, w.opened = some a then w.deliver keyOf m else w := by
  have nodup : w.up.Nodup := List.nodup_range.filter _
  unfold World.publish
  generalize w.up = as at nodup
  induction as generalizing w with
  | nil => simp
  | cons a as ih =>
      obtain ⟨out, nodup⟩ := List.nodup_cons.mp nodup
      rw [List.foldl_cons, ih (w.hear keyOf a m) nodup, World.hear]
      by_cases current : w.opened = some a
      · have gone : ¬∃ b ∈ as, (w.deliver keyOf m).opened = some b := by
          rintro ⟨b, mem, is⟩
          have same : a = b := Option.some.inj (current.symm.trans is)
          exact out (same ▸ mem)
        rw [if_pos current, if_neg gone, if_pos ⟨a, List.mem_cons_self, current⟩]
      · rw [if_neg current]
        have same : (∃ b ∈ a :: as, w.opened = some b) ↔ ∃ b ∈ as, w.opened = some b := by
          simp [current]
        simp only [same]

theorem hear_heard (w : World μ) (a : Nat) (m : μ) (i : Nat) :
    heardOf ((w.hear keyOf a m).iter i).log = heardOf (w.iter i).log ++
      if w.opened = some a ∧ i ∈ w.listeners ∧ (w.iter i).key = keyOf m then [m] else [] := by
  unfold World.hear
  by_cases current : w.opened = some a
  · rw [if_pos current, deliver_heard]
    simp only [current, true_and]
  · rw [if_neg current, if_neg fun all => current all.1, List.append_nil]

theorem unpublished_heard (w : World μ) (m : μ) (i : Nat) :
    heardOf ((w.unpublished keyOf m).iter i).log = heardOf (w.iter i).log ++
      if w.fallback = true ∧ i ∈ w.listeners ∧ (w.iter i).key = keyOf m then [m] else [] := by
  unfold World.unpublished
  split
  next falls =>
    rw [deliver_heard]
    simp only [falls.1, true_and]
  next stays =>
    rw [if_neg fun all => stays ⟨all.1, i, all.2⟩, List.append_nil]

/-! Whether there is a fallback is settled when the streams are made. -/

theorem release_fallback (w : World μ) : w.release.fallback = w.fallback := by
  unfold World.release
  cases w.opened with
  | none => rfl
  | some a => cases w.live <;> rfl

theorem leave_fallback (w : World μ) (i : Nat) : (w.leave i).fallback = w.fallback := by
  unfold World.leave World.remove
  dsimp only
  split
  · split
    · exact release_fallback _
    · rfl
  · rfl

theorem open_fallback (w : World μ) : w.open_.fallback = w.fallback := by
  unfold World.open_
  split
  · rfl
  · cases w.opened <;> rfl

theorem start_fallback (w : World μ) (i : Nat) : (w.start i).fallback = w.fallback := by
  unfold World.start
  have begun (w' : World μ) (same : w'.fallback = w.fallback) :
      (if (w'.iter i).stopped then w'
        else (if (w'.iter i).started then w'
          else (w'.onIter i fun r => { r with started := true }).add i).open_).fallback =
        w.fallback := by
    split
    · exact same
    · rw [open_fallback]
      split <;> exact same
  by_cases closed : w.closed = true
  · simp only [closed, if_true]
    exact begun _ rfl
  · simp only [closed, Bool.false_eq_true, if_false]
    exact begun w rfl

theorem enter_fallback (w : World μ) (i : Nat) : (w.enter i).fallback = w.fallback := by
  unfold World.enter
  split
  · exact start_fallback w i
  split <;> rfl

theorem finish_fallback (w : World μ) (i : Nat) :
    (if (w.iter i).stopped then w.leave i else w).fallback = w.fallback := by
  split
  · exact leave_fallback w i
  · rfl

theorem hear_fallback (w : World μ) (a : Nat) (m : μ) :
    (w.hear keyOf a m).fallback = w.fallback := by
  unfold World.hear
  split <;> rfl

theorem step_fallback (w : World μ) (act : Act μ) :
    (step keyOf w act).fallback = w.fallback := by
  cases act with
  | stream key limit => rfl
  | next i =>
      rw [World.step]
      split
      · exact (finish_fallback _ i).trans (enter_fallback w i)
      · rfl
  | resume i =>
      rw [World.step]
      split
      · unfold World.resume
        split
        · rfl
        · exact finish_fallback _ i
      · rfl
  | ready i =>
      rw [World.step]
      split
      · exact start_fallback w i
      · rfl
  | leave i =>
      rw [World.step]
      split
      · exact leave_fallback w i
      · rfl
  | close => exact release_fallback _
  | hear a m => exact hear_fallback w a m
  | publish m =>
      rw [World.step, publish_eq]
      split <;> rfl
  | unpublished m =>
      rw [World.step, World.unpublished]
      split <;> rfl
  | resolve a | reject a | shut a =>
      rw [World.step]
      split <;> rfl
  | awaited a | react a =>
      rw [World.step]
      split
      · split <;> rfl
      · rfl

theorem run_fallback (fallback : Bool) (acts : List (Act μ)) :
    (run keyOf { fallback } acts).fallback = fallback := by
  induction acts using List.reverseRecOn with
  | nil => rfl
  | append_singleton acts act ih =>
      rw [run, List.foldl_append]
      exact (step_fallback _ act).trans ih

theorem resume_reader (sound : Sound keyOf w) (i : Nat) :
    (w.resume i).iter i = (w.iter i).resume := by
  unfold World.resume
  split
  next none =>
    unfold Reader.resume
    rw [none]
  next =>
    have own : (w.onIter i Reader.resume).iter i = (w.iter i).resume := onIter_self w i _
    dsimp only
    rw [own]
    split
    next stopped =>
      have awake := (sound.readers i).resume.awake stopped
      have still : (w.iter i).resume.halt = (w.iter i).resume := by
        rw [Reader.halt, ← stopped]
      rw [World.leave, (remove_rest _ i).1, onIter_self, own, Reader.stop, still, Reader.wake,
        if_pos (List.isEmpty_iff.mpr awake)]
    next => exact own

theorem resume_made (w : World μ) (i : Nat) : (w.resume i).made = w.made := by
  unfold World.resume
  split
  · rfl
  · dsimp only
    split
    · exact (remove_rest _ i).2
    · rfl

theorem resumes_reader (sound : Sound keyOf w) {i : Nat} (lt : i < w.made) (n : Nat) :
    (run keyOf w (List.replicate n (.resume i))).iter i = Reader.resume^[n] (w.iter i) := by
  induction n generalizing w with
  | zero => rfl
  | succ n ih =>
      rw [List.replicate_succ, run, List.foldl_cons, Function.iterate_succ_apply]
      have is : step keyOf w (.resume i) = w.resume i := if_pos lt
      rw [is, ← resume_reader sound]
      have lt' : i < (w.resume i).made := by
        rw [resume_made]
        exact lt
      exact ih (sound.resume i) lt'

/-! The claim's parts. -/

/-- What a state of a channel's streams, made with or without the local fallback, promises its
readers. -/
structure Serves (keyOf : μ → String) (fallback : Bool) (w : World μ) : Prop where
  /-- An iterator has heard what of its key was delivered since it registered, in order. -/
  heard : ∀ i, heardOf (w.iter i).log = (due keyOf i (w.iter i).key w.happened).2
  /-- The values of its calls, in their order, are what it heard less the oldest that were
  dropped while `bufferSize` were unread, -/
  values : ∀ i, (w.iter i).values = (readout (w.iter i).limit (w.iter i).log).1
  /-- and none twice. -/
  once : ∀ i, ((w.iter i).values ++ (w.iter i).queue).Sublist (heardOf (w.iter i).log)
  unread : ∀ i, (w.iter i).queue.length ≤ (w.iter i).limit
  /-- A message is heard once at most, by the registered iterators of its key. -/
  published : ∀ m i, heardOf ((step keyOf w (.publish m)).iter i).log = heardOf (w.iter i).log ++
    if (∃ a ∈ w.up, w.opened = some a) ∧ i ∈ w.listeners ∧ (w.iter i).key = keyOf m then [m]
    else []
  /-- What a subscription that is not the current one still delivers is not heard. -/
  delivered : ∀ a m i, heardOf ((step keyOf w (.hear a m)).iter i).log =
    heardOf (w.iter i).log ++
      if w.opened = some a ∧ i ∈ w.listeners ∧ (w.iter i).key = keyOf m then [m] else []
  /-- With the fallback, a publish that failed is heard by the same, and by nobody without. -/
  fellBack : ∀ m i, heardOf ((step keyOf w (.unpublished m)).iter i).log =
    heardOf (w.iter i).log ++
      if fallback = true ∧ i ∈ w.listeners ∧ (w.iter i).key = keyOf m then [m] else []
  /-- From when the subscription that `ready` awaits has opened none is missed. -/
  ready : ∀ i a, (i, some a) ∈ w.readies → (w.attempt a).state = .resolved →
    (w.iter i).stopped = false → i ∈ w.listeners ∧ a ∈ w.up ∧ w.opened = some a
  /-- Any other `ready` that resolves is of an iterator that has stopped. -/
  ended : ∀ i, (i, none) ∈ w.readies → (w.iter i).stopped = true
  leaves : ∀ i, i < w.made → ((step keyOf w (.leave i)).iter i).stopped = true
  /-- Once the iterator or the channel is closed, its woken reads settle every call. -/
  settles : ∀ i, i < w.made → w.closed = true ∨ (w.iter i).stopped = true →
    let r := (run keyOf w (List.replicate (w.iter i).woken.length (.resume i))).iter i
    (r.answers.map Prod.fst).Perm (List.range r.calls) ∧ r.calls = (w.iter i).calls
  idle : w.listeners = [] → w.opened = none
  /-- A subscription that was released failed, is closed, or waits to be where it opens: -/
  released : ∀ a, a < w.attempts → w.opened ≠ some a → (w.attempt a).state = .rejected ∨
    (w.attempt a).closing = true ∨ (w.attempt a).thenClose = true
  /-- and there it is. -/
  late : ∀ a, (w.attempt a).thenClose = true → (w.attempt a).state = .resolved →
    ((step keyOf w (.react a)).attempt a).closing = true

theorem Sound.settles (sound : Sound keyOf w) {i : Nat} (lt : i < w.made)
    (ended : w.closed = true ∨ (w.iter i).stopped = true) :
    ((Reader.resume^[(w.iter i).woken.length] (w.iter i)).answers.map Prod.fst).Perm
      (List.range (w.iter i).calls) := by
  cases stopped : (w.iter i).stopped with
  | true => exact Reader.settles (sound.readers i) stopped
  | false =>
      have closed : w.closed = true := ended.resolve_right (by simp [stopped])
      have unstarted : (w.iter i).started = false := by
        by_contra started
        have mem := (sound.listening i).mpr ⟨lt, by simpa using started, stopped⟩
        rw [sound.closed closed] at mem
        exact absurd mem List.not_mem_nil
      have none := sound.uncalled i unstarted stopped
      obtain ⟨after, calls⟩ := iterate_resume (sound.readers i) (w.iter i).woken.length
      have size := after.once.length_eq
      rw [calls, none] at size
      simp only [List.length_append, List.length_range] at size
      rw [none, List.eq_nil_of_length_eq_zero (l := List.map _ _) (by omega)]
      exact List.Perm.refl _

theorem Sound.serves (sound : Sound keyOf w) (orderly : w.Orderly) :
    Serves keyOf w.fallback w where
  heard i := (congrArg Prod.snd (sound.heard i)).symm
  values i := (orderly i).values (sound.readers i)
  once i := by
    have unread : (readout (w.iter i).limit (w.iter i).log).2 = (w.iter i).queue :=
      congrArg Prod.snd (sound.readers i).taken
    rw [(orderly i).values (sound.readers i), ← unread]
    exact readout_sublist _ _
  unread i := by
    have unread : (readout (w.iter i).limit (w.iter i).log).2 = (w.iter i).queue :=
      congrArg Prod.snd (sound.readers i).taken
    rw [← unread]
    exact readout_unread (w.iter i).limit.2 _
  published m i := by
    rw [World.step, publish_eq]
    by_cases some : ∃ a ∈ w.up, w.opened = some a
    · rw [if_pos some, deliver_heard]
      simp only [some, true_and]
    · rw [if_neg some, if_neg fun all => some all.1, List.append_nil]
  delivered a m i := hear_heard w a m i
  fellBack m i := unpublished_heard w m i
  ready i a mem resolved going := by
    obtain ⟨lt, begun⟩ := sound.readied i (some a) mem
    have listens := (sound.listening i).mpr ⟨lt, begun.resolve_right (by simp [going]), going⟩
    have current : w.opened = some a := by
      refine (sound.awaited i a mem listens).resolve_right ?_
      rw [resolved]
      exact fun other => by cases other
    obtain ⟨begun, closing, -⟩ := sound.current a current
    refine ⟨listens, List.mem_filter.mpr ⟨List.mem_range.mpr begun, ?_⟩, current⟩
    have open_ : (w.attempt a).shut = false := by
      by_contra shut
      rw [sound.shut a (by simpa using shut)] at closing
      cases closing
    simp [resolved, open_]
  ended := sound.unready
  leaves i lt := by
    rw [World.step, if_pos lt, World.leave, (remove_rest _ i).1, onIter_self]
    exact (stop_rest _).2.1
  settles i lt closed := by
    dsimp only
    rw [resumes_reader sound lt, (iterate_resume (sound.readers i) _).2]
    exact ⟨sound.settles lt closed, rfl⟩
  idle := sound.idle
  released := sound.released
  late a waits resolved := by
    simp only [World.step, waits, resolved, if_true]
    change (Function.update w.attempt a _ a).closing = true
    rw [Function.update_self]

/-- In every state of a run whose acts are in line, each iterator's calls have got the messages
of its key once and in order. -/
theorem run_serves (fallback : Bool) {acts done : List (Act μ)}
    (patient : Patient keyOf { fallback } acts) (le : done <+: acts) :
    Serves keyOf fallback (run keyOf { fallback } done) := by
  have sound : Sound keyOf (run keyOf { fallback } done) := run_sound fallback done
  have serves := sound.serves
    ((patient.before le).orderly (Kept.sound_made fallback) fun _ => ordered_made _ _ _)
  rw [run_fallback] at serves
  exact serves

end Lemmas

/-- Two calls of one iterator wait in line for two messages. -/
theorem run_serves_line :
    let acts : List (Act Nat) := [.stream "k" ⟨256, by decide⟩, .next 0, .next 0, .resolve 0,
      .awaited 0, .publish 1, .resume 0, .publish 2, .resume 0]
    Serves (fun _ => "k") true (run (fun _ => "k") { fallback := true } acts) ∧
      ((run (fun _ => "k") { fallback := true } acts).iter 0).values = [1, 2] := by
  refine ⟨run_serves true ?_ (List.prefix_refl _), by decide⟩
  exact ⟨trivial, .inl (by decide), .inl (by decide), trivial, trivial, trivial, trivial, trivial,
    trivial, trivial⟩

/-- A second call comes between a message and the read that the message woke: the first call
gets the later message. -/
theorem run_crosses :
    let w : World Nat := run (fun _ => "k") { fallback := true }
      [.stream "k" ⟨256, by decide⟩, .next 0, .resolve 0, .awaited 0, .publish 1, .next 0,
        .resume 0, .publish 2, .resume 0]
    ((due (fun _ => "k") 0 "k" w.happened).2 = [1, 2] ∧ (w.iter 0).values = [2, 1] ∧
      (w.iter 0).queue = []) ∧ ¬Serves (fun _ => "k") true w := by
  refine ⟨by decide, fun serves => ?_⟩
  have values := serves.values 0
  revert values
  decide

end World
end NxgtData.Redis.Streams
