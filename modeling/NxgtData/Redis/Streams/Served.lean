import NxgtData.Redis.Streams.Keyed

/-!
What holds of a channel's streams however their acts follow each other: the listeners are the
iterators that have started and not stopped, each has heard what of its key was delivered since
it joined, the current subscription is open for somebody, and any other is closed or will be.
-/
namespace NxgtData.Redis.Streams
open Reader

namespace World

variable {μ : Type} {keyOf : μ → String}

/-- All but that a subscription is current only for a listener. -/
structure Kept (keyOf : μ → String) (w : World μ) : Prop where
  count : w.count = w.listeners.length
  nodup : w.listeners.Nodup
  listening : ∀ i, i ∈ w.listeners ↔
    i < w.made ∧ (w.iter i).started = true ∧ (w.iter i).stopped = false
  closed : w.closed = true → w.listeners = []
  live : ∀ a, w.live = some a → w.opened = some a ∧ (w.attempt a).state = .resolved
  current : ∀ a, w.opened = some a → a < w.attempts ∧ (w.attempt a).closing = false ∧
    (w.attempt a).thenClose = false
  /-- A subscription that was released is closed, or will be where it opens. -/
  released : ∀ a, a < w.attempts → w.opened ≠ some a → (w.attempt a).state = .rejected ∨
    (w.attempt a).closing = true ∨ (w.attempt a).thenClose = true
  shut : ∀ a, (w.attempt a).shut = true → (w.attempt a).closing = true
  fresh : ∀ a, w.attempts ≤ a → w.attempt a = {}
  readied : ∀ i x, (i, x) ∈ w.readies → i < w.made ∧
    ((w.iter i).started = true ∨ (w.iter i).stopped = true)
  /-- What `ready` awaits is current while the iterator is registered, unless it failed. -/
  awaited : ∀ i a, (i, some a) ∈ w.readies → i ∈ w.listeners →
    w.opened = some a ∨ (w.attempt a).state = .rejected
  unready : ∀ i, (i, none) ∈ w.readies → (w.iter i).stopped = true
  readers : ∀ i, (w.iter i).Sound
  uncalled : ∀ i, (w.iter i).started = false → (w.iter i).stopped = false → (w.iter i).calls = 0
  heard : ∀ i, due keyOf i (w.iter i).key w.happened =
    (decide (i ∈ w.listeners), heardOf (w.iter i).log)
  unmade : ∀ i, w.made ≤ i → Happening.joined i ∉ w.happened

structure Sound (keyOf : μ → String) (w : World μ) : Prop extends Kept keyOf w where
  idle : w.listeners = [] → w.opened = none

/-! What an iterator is to hear. -/

theorem due_snoc (i : Nat) (key : String) (happened : List (Happening μ)) (e : Happening μ) :
    due keyOf i key (happened ++ [e]) = match e with
      | .joined j => ((due keyOf i key happened).1 || j == i, (due keyOf i key happened).2)
      | .left j => ((due keyOf i key happened).1 && j != i, (due keyOf i key happened).2)
      | .delivered m => ((due keyOf i key happened).1,
          if (due keyOf i key happened).1 ∧ key = keyOf m then (due keyOf i key happened).2 ++ [m]
          else (due keyOf i key happened).2) := by
  rw [due, List.foldl_append]
  rfl

theorem due_unjoined {i : Nat} (key : String) {happened : List (Happening μ)}
    (no : Happening.joined i ∉ happened) : due keyOf i key happened = (false, []) := by
  induction happened using List.reverseRecOn with
  | nil => rfl
  | append_singleton happened e ih =>
      rw [List.mem_append, not_or, List.mem_singleton] at no
      rw [due_snoc, ih no.1]
      cases e with
      | joined j =>
          have ne : j ≠ i := fun same => no.2 (congrArg Happening.joined same.symm)
          simp [ne]
      | left j => rfl
      | delivered m => simp

theorem due_lefts (i : Nat) (key : String) (happened : List (Happening μ)) (js : List Nat) :
    due keyOf i key (happened ++ js.map .left) =
      ((due keyOf i key happened).1 && decide (i ∉ js), (due keyOf i key happened).2) := by
  induction js using List.reverseRecOn with
  | nil => simp
  | append_singleton js j ih =>
      rw [List.map_append, ← List.append_assoc, List.map_singleton, due_snoc, ih]
      dsimp only
      congr 1
      rw [Bool.and_assoc]
      congr 1
      by_cases same : j = i
      · simp [same]
      · have other : i ≠ j := fun eq => same eq.symm
        simp [same, other]

section Lemmas
variable {w : World μ}

theorem Kept.sound_made (fallback : Bool) : Sound keyOf ({ fallback } : World μ) where
  count := rfl
  nodup := List.nodup_nil
  listening i := ⟨fun mem => absurd mem List.not_mem_nil, fun h => absurd h.1 (Nat.not_lt_zero i)⟩
  closed _ := rfl
  live a h := by cases h
  current a h := by cases h
  released a lt := absurd lt (Nat.not_lt_zero a)
  shut a h := by cases h
  fresh a _ := rfl
  readied i x mem := absurd mem List.not_mem_nil
  awaited i a mem := absurd mem List.not_mem_nil
  unready i mem := absurd mem List.not_mem_nil
  readers i := Reader.sound_made _ _ _
  uncalled i _ running := by cases running
  heard i := rfl
  unmade i _ := List.not_mem_nil
  idle _ := rfl

/-- A change of iterators that none of the rest sees. -/
structure Quiet (w : World μ) (i : Nat) (r : Reader μ) : Prop where
  key : r.key = (w.iter i).key
  started : r.started = (w.iter i).started
  heard : heardOf r.log = heardOf (w.iter i).log
  sound : r.Sound
  stays : (w.iter i).stopped = true → r.stopped = true
  runs : i ∈ w.listeners → r.stopped = false
  uncalled : r.started = false → r.stopped = false → r.calls = 0

theorem Kept.withIter (h : Kept keyOf w) {iter : Nat → Reader μ} (quiet : ∀ i, w.Quiet i (iter i)) :
    Kept keyOf { w with iter } where
  count := h.count
  nodup := h.nodup
  listening i := by
    constructor
    · intro mem
      obtain ⟨lt, started, -⟩ := (h.listening i).mp mem
      exact ⟨lt, (quiet i).started.trans started, (quiet i).runs mem⟩
    · rintro ⟨lt, started, running⟩
      refine (h.listening i).mpr ⟨lt, (quiet i).started.symm.trans started, ?_⟩
      by_contra stopped
      have stays := (quiet i).stays (by simpa using stopped)
      dsimp only at running
      rw [stays] at running
      cases running
  closed := h.closed
  live := h.live
  current := h.current
  released := h.released
  shut := h.shut
  fresh := h.fresh
  readied i x mem := by
    obtain ⟨lt, either⟩ := h.readied i x mem
    refine ⟨lt, either.imp (fun started => (quiet i).started.trans started) (quiet i).stays⟩
  awaited := h.awaited
  unready i mem := (quiet i).stays (h.unready i mem)
  readers i := (quiet i).sound
  uncalled i := (quiet i).uncalled
  heard i := by
    have heard := h.heard i
    rw [← (quiet i).key, ← (quiet i).heard] at heard
    exact heard
  unmade := h.unmade

theorem Kept.refl (h : Kept keyOf w) (i : Nat) : w.Quiet i (w.iter i) where
  key := rfl
  started := rfl
  heard := rfl
  sound := h.readers i
  stays stopped := stopped
  runs mem := ((h.listening i).mp mem).2.2
  uncalled := h.uncalled i

theorem Kept.onIter (h : Kept keyOf w) {i : Nat} {f : Reader μ → Reader μ}
    (quiet : w.Quiet i (f (w.iter i))) : Kept keyOf (w.onIter i f) := by
  refine h.withIter fun j => ?_
  by_cases same : j = i
  · rw [same, Function.update_self]
    exact quiet
  · rw [Function.update_of_ne same]
    exact h.refl j

theorem Sound.onIter (h : Sound keyOf w) {i : Nat} {f : Reader μ → Reader μ}
    (quiet : w.Quiet i (f (w.iter i))) : Sound keyOf (w.onIter i f) where
  toKept := h.toKept.onIter quiet
  idle := h.idle

theorem onIter_self (w : World μ) (i : Nat) (f : Reader μ → Reader μ) :
    (w.onIter i f).iter i = f (w.iter i) := Function.update_self ..

theorem onIter_of_ne {i j : Nat} (ne : j ≠ i) (w : World μ) (f : Reader μ → Reader μ) :
    (w.onIter i f).iter j = w.iter j := Function.update_of_ne ne ..

/-! The subscription. -/

/-- A change of attempts that leaves none current but the one that is. -/
theorem Kept.release (h : Kept keyOf w) (none_ : w.listeners = []) : Sound keyOf w.release := by
  have empty (i : Nat) : i ∉ w.listeners := by
    rw [none_]
    exact List.not_mem_nil
  -- What `release` does to the attempts, and that it forgets the current one.
  have rest {attempt : Nat → Attempt}
      (released : ∀ a, a < w.attempts → (attempt a).state = .rejected ∨
        (attempt a).closing = true ∨ (attempt a).thenClose = true)
      (shut : ∀ a, (attempt a).shut = true → (attempt a).closing = true)
      (fresh : ∀ a, w.attempts ≤ a → attempt a = {}) :
      Sound keyOf { w with opened := none, live := none, attempt } :=
    { count := h.count
      nodup := h.nodup
      listening := h.listening
      closed := h.closed
      live := fun a is => by cases is
      current := fun a is => by cases is
      released := fun a lt _ => released a lt
      shut := shut
      fresh := fresh
      readied := h.readied
      awaited := fun i a _ mem => absurd mem (empty i)
      unready := h.unready
      readers := h.readers
      uncalled := h.uncalled
      heard := h.heard
      unmade := h.unmade
      idle := fun _ => rfl }
  have ends {a : Nat} (is : w.opened = some a) {s : Attempt}
      (state : s.state = (w.attempt a).state) (closes : s.closing = true ∨ s.thenClose = true)
      (shut : s.shut = true → s.closing = true) :
      Sound keyOf { w with
        opened := none, live := none, attempt := Function.update w.attempt a s } := by
    refine rest (fun b lt => ?_) (fun b isShut => ?_) (fun b ge => ?_)
    · by_cases same : b = a
      · rw [same, Function.update_self]
        exact .inr closes
      · rw [Function.update_of_ne same]
        refine h.released b lt fun other => same ?_
        rw [is] at other
        exact (Option.some.inj other).symm
    · by_cases same : b = a
      · rw [same, Function.update_self] at isShut ⊢
        exact shut isShut
      · rw [Function.update_of_ne same] at isShut ⊢
        exact h.shut b isShut
    · have lt := (h.current a is).1
      rw [Function.update_of_ne (by omega)]
      exact h.fresh b ge
  unfold World.release
  cases current : w.opened with
  | none =>
      refine rest (fun b lt => h.released b lt ?_) h.shut h.fresh
      rw [current]
      exact fun other => by cases other
  | some a =>
      cases live : w.live with
      | none => exact ends current rfl (.inr rfl) (h.shut a)
      | some b => exact ends (h.live b live).1 rfl (.inl rfl) fun _ => rfl

theorem Kept.open_ (h : Kept keyOf w) (some_ : w.listeners ≠ []) : Sound keyOf w.open_ := by
  unfold World.open_
  split
  next => exact ⟨h, fun none => absurd none some_⟩
  next =>
    split
    next => exact ⟨h, fun none => absurd none some_⟩
    next noCurrent =>
      have isFresh := h.fresh w.attempts (Nat.le_refl _)
      refine ⟨{ count := h.count, nodup := h.nodup, listening := h.listening, closed := h.closed,
                shut := h.shut, readied := h.readied, unready := h.unready, readers := h.readers,
                uncalled := h.uncalled, heard := h.heard, unmade := h.unmade, live := ?_,
                current := ?_, released := ?_, fresh := ?_, awaited := ?_ },
              fun none => absurd none some_⟩
      · intro a live
        rw [(h.live a live).1] at noCurrent
        cases noCurrent
      · intro a is
        cases is
        exact ⟨Nat.lt_succ_self _, by rw [isFresh], by rw [isFresh]⟩
      · intro a lt ne
        refine h.released a ?_ ?_
        · have other : a ≠ w.attempts := fun same => ne (congrArg some same.symm)
          dsimp only at lt
          omega
        · rw [noCurrent]
          exact fun other => by cases other
      · intro a ge
        exact h.fresh a (Nat.le_of_succ_le ge)
      · intro i a ready mem
        rcases h.awaited i a ready mem with is | failed
        · rw [noCurrent] at is
          cases is
        · exact .inr failed

theorem Sound.open_ (h : Sound keyOf w) (some_ : w.listeners ≠ []) : Sound keyOf w.open_ :=
  h.toKept.open_ some_

/-! Joining and leaving. -/

theorem Kept.add (h : Kept keyOf w) {i : Nat} (lt : i < w.made) (running : w.closed = false)
    (unstarted : (w.iter i).started = false) (going : (w.iter i).stopped = false) :
    Kept keyOf ((w.onIter i fun r => { r with started := true }).add i) := by
  have out : i ∉ w.listeners := fun mem => by
    have started := ((h.listening i).mp mem).2.1
    rw [unstarted] at started
    cases started
  have unready (x : Option Nat) : (i, x) ∉ w.readies := fun mem => by
    rcases (h.readied i x mem).2 with started | stopped
    · rw [unstarted] at started
      cases started
    · rw [going] at stopped
      cases stopped
  have other {j : Nat} (ne : j ≠ i) :
      Function.update w.iter i { w.iter i with started := true } j = w.iter j :=
    Function.update_of_ne ne _ _
  have own : Function.update w.iter i { w.iter i with started := true } i =
      { w.iter i with started := true } := Function.update_self ..
  exact {
    count := by
      change w.count + 1 = (w.listeners ++ [i]).length
      rw [List.length_append, h.count]
      rfl
    nodup := List.nodup_append.mpr ⟨h.nodup, List.pairwise_singleton _ i, fun j mem k mem' => by
      rw [List.mem_singleton] at mem'
      rw [mem']
      exact fun same => out (same ▸ mem)⟩
    listening := fun j => by
      change j ∈ w.listeners ++ [i] ↔ j < w.made ∧ (Function.update w.iter i _ j).started = true ∧
        (Function.update w.iter i _ j).stopped = false
      by_cases same : j = i
      · rw [same, own]
        simp [lt, going]
      · rw [other same, List.mem_append, List.mem_singleton, h.listening j]
        simp [same]
    closed := fun closed => by
      rw [show w.closed = true from closed] at running
      cases running
    live := h.live
    current := h.current
    released := h.released
    shut := h.shut
    fresh := h.fresh
    readied := fun j x mem => by
      by_cases same : j = i
      · exact absurd (same ▸ mem) (unready x)
      · change j < w.made ∧ ((Function.update w.iter i _ j).started = true ∨
          (Function.update w.iter i _ j).stopped = true)
        rw [other same]
        exact h.readied j x mem
    awaited := fun j a mem listens => by
      by_cases same : j = i
      · exact absurd (same ▸ mem) (unready (some a))
      · refine h.awaited j a mem ?_
        rcases List.mem_append.mp listens with before | now
        · exact before
        · exact absurd (List.mem_singleton.mp now) same
    unready := fun j mem => by
      by_cases same : j = i
      · exact absurd (same ▸ mem) (unready none)
      · change (Function.update w.iter i _ j).stopped = true
        rw [other same]
        exact h.unready j mem
    readers := fun j => by
      change (Function.update w.iter i _ j).Sound
      by_cases same : j = i
      · rw [same, own]
        obtain ⟨idle, awake, taken, once⟩ := h.readers i
        exact ⟨idle, awake, taken, once⟩
      · rw [other same]
        exact h.readers j
    uncalled := fun j unstarted' going' => by
      change (Function.update w.iter i _ j).calls = 0
      change (Function.update w.iter i _ j).started = false at unstarted'
      change (Function.update w.iter i _ j).stopped = false at going'
      by_cases same : j = i
      · rw [same, own] at unstarted'
        cases unstarted'
      · rw [other same] at unstarted' going' ⊢
        exact h.uncalled j unstarted' going'
    heard := fun j => by
      change due keyOf j (Function.update w.iter i _ j).key (w.happened ++ [.joined i]) =
        (decide (j ∈ w.listeners ++ [i]), heardOf (Function.update w.iter i _ j).log)
      rw [due_snoc]
      by_cases same : j = i
      · rw [same, own]
        have heard := h.heard i
        dsimp only
        rw [heard]
        simp
      · rw [other same, h.heard j]
        have ne : i ≠ j := fun eq => same eq.symm
        simp [same, ne]
    unmade := fun j ge mem => by
      rcases List.mem_append.mp mem with before | now
      · exact h.unmade j ge before
      · rw [List.mem_singleton] at now
        cases now
        exact absurd lt (Nat.not_lt.mpr ge) }

/-- An iterator stops and its listener goes. -/
theorem Kept.drop (h : Kept keyOf w) {i : Nat} (mem : i ∈ w.listeners) :
    Kept keyOf { w.onIter i Reader.stop with
      listeners := w.listeners.erase i
      count := w.count - 1
      happened := w.happened ++ [.left i] } := by
  have other {j : Nat} (ne : j ≠ i) :
      Function.update w.iter i (w.iter i).stop j = w.iter j := Function.update_of_ne ne _ _
  have own : Function.update w.iter i (w.iter i).stop i = (w.iter i).stop :=
    Function.update_self ..
  obtain ⟨key, stopped, started, log⟩ := Reader.stop_rest (w.iter i)
  have known := (h.listening i).mp mem
  exact {
    count := by
      change w.count - 1 = (w.listeners.erase i).length
      rw [h.count, List.length_erase_of_mem mem]
    nodup := h.nodup.erase i
    listening := fun j => by
      change j ∈ w.listeners.erase i ↔ j < w.made ∧
        (Function.update w.iter i _ j).started = true ∧
          (Function.update w.iter i _ j).stopped = false
      by_cases same : j = i
      · rw [same, own, stopped]
        simp [h.nodup.not_mem_erase]
      · rw [other same, List.mem_erase_of_ne same]
        exact h.listening j
    closed := fun closed => by
      rw [h.closed closed] at mem
      exact absurd mem List.not_mem_nil
    live := h.live
    current := h.current
    released := h.released
    shut := h.shut
    fresh := h.fresh
    readied := fun j x ready => by
      obtain ⟨lt, either⟩ := h.readied j x ready
      refine ⟨lt, ?_⟩
      change (Function.update w.iter i _ j).started = true ∨
        (Function.update w.iter i _ j).stopped = true
      by_cases same : j = i
      · rw [same, own]
        exact .inr stopped
      · rw [other same]
        exact either
    awaited := fun j a ready listens => h.awaited j a ready (List.mem_of_mem_erase listens)
    unready := fun j ready => by
      change (Function.update w.iter i _ j).stopped = true
      by_cases same : j = i
      · rw [same, own]
        exact stopped
      · rw [other same]
        exact h.unready j ready
    readers := fun j => by
      change (Function.update w.iter i _ j).Sound
      by_cases same : j = i
      · rw [same, own]
        exact (h.readers i).stop
      · rw [other same]
        exact h.readers j
    uncalled := fun j unstarted going => by
      change (Function.update w.iter i _ j).calls = 0
      change (Function.update w.iter i _ j).started = false at unstarted
      change (Function.update w.iter i _ j).stopped = false at going
      by_cases same : j = i
      · rw [same, own, stopped] at going
        cases going
      · rw [other same] at unstarted going ⊢
        exact h.uncalled j unstarted going
    heard := fun j => by
      change due keyOf j (Function.update w.iter i _ j).key (w.happened ++ [.left i]) =
        (decide (j ∈ w.listeners.erase i), heardOf (Function.update w.iter i _ j).log)
      rw [due_snoc]
      by_cases same : j = i
      · rw [same, own, key, log, h.heard i]
        simp [h.nodup.not_mem_erase]
      · rw [other same, h.heard j]
        have ne : j ≠ i := same
        have ne' : i ≠ j := fun eq => same eq.symm
        simp [List.mem_erase_of_ne ne, ne']
    unmade := fun j ge joined => by
      rcases List.mem_append.mp joined with before | now
      · exact h.unmade j ge before
      · rw [List.mem_singleton] at now
        cases now }

theorem stop_quiet (h : Kept keyOf w) {i : Nat} (out : i ∉ w.listeners) :
    w.Quiet i (w.iter i).stop where
  key := (Reader.stop_rest _).1
  started := (Reader.stop_rest _).2.2.1
  heard := congrArg heardOf (Reader.stop_rest _).2.2.2
  sound := (h.readers i).stop
  stays _ := (Reader.stop_rest _).2.1
  runs mem := absurd mem out
  uncalled _ going := by
    rw [(Reader.stop_rest _).2.1] at going
    cases going

theorem Sound.leave (h : Sound keyOf w) (i : Nat) : Sound keyOf (w.leave i) := by
  unfold World.leave World.remove
  split
  next mem =>
    have dropped := h.toKept.drop mem
    dsimp only
    split
    next last =>
      refine dropped.release ?_
      have count := dropped.count
      dsimp only at count ⊢
      exact List.eq_nil_of_length_eq_zero (count.symm.trans last)
    next some =>
      refine ⟨dropped, fun none => absurd ?_ some⟩
      have count := dropped.count
      change w.count - 1 = (w.listeners.erase i).length at count
      change w.listeners.erase i = [] at none
      rw [none] at count
      exact count
  next out => exact h.onIter (stop_quiet h.toKept out)

/-- A read that finds its iterator stopped leaves. -/
theorem Sound.finish (h : Sound keyOf w) (i : Nat) :
    Sound keyOf (if (w.iter i).stopped then w.leave i else w) := by
  split
  · exact h.leave i
  · exact h

theorem halt_quiet (h : Kept keyOf w) {i : Nat} (lt : i < w.made) (closed : w.closed = true) :
    w.Quiet i (w.iter i).halt where
  key := rfl
  started := rfl
  heard := rfl
  sound := by
    obtain ⟨idle, awake, taken, once⟩ := h.readers i
    refine ⟨idle, fun _ => ?_, taken, once⟩
    by_cases stopped : (w.iter i).stopped = true
    · exact awake stopped
    · have going : (w.iter i).stopped = false := by simpa using stopped
      have unstarted : (w.iter i).started = false := by
        by_contra started
        have mem := (h.listening i).mpr ⟨lt, by simpa using started, going⟩
        rw [h.closed closed] at mem
        exact absurd mem List.not_mem_nil
      have size := once.length_eq
      rw [h.uncalled i unstarted going] at size
      simp only [List.length_append, List.length_range] at size
      change (w.iter i).waiters = []
      exact List.eq_nil_of_length_eq_zero (by omega)
  stays _ := rfl
  runs mem := by
    rw [h.closed closed] at mem
    exact absurd mem List.not_mem_nil
  uncalled _ going := by cases going

theorem open_rest (w : World μ) : w.open_.listeners = w.listeners ∧ w.open_.iter = w.iter ∧
    w.open_.made = w.made ∧ (w.closed = false → ∃ a, w.open_.opened = some a) := by
  unfold World.open_
  split
  next closed => exact ⟨rfl, rfl, rfl, fun running => by simp [closed] at running⟩
  next =>
    split
    next a current => exact ⟨rfl, rfl, rfl, fun _ => ⟨a, current⟩⟩
    next => exact ⟨rfl, rfl, rfl, fun _ => ⟨_, rfl⟩⟩

/-- What `start` leaves is a sound iterator that is registered, for a current subscription, or
has stopped. -/
theorem Sound.start (h : Sound keyOf w) {i : Nat} (lt : i < w.made) : Sound keyOf (w.start i) ∧
    (w.start i).made = w.made ∧
    (((w.start i).iter i).stopped = false →
      i ∈ (w.start i).listeners ∧ ∃ a, (w.start i).opened = some a) := by
  have halted (closed : w.closed = true) : Sound keyOf (w.onIter i Reader.halt) :=
    h.onIter (halt_quiet h.toKept lt closed)
  unfold World.start
  by_cases closed : w.closed = true
  · simp only [closed, if_true]
    have stopped : ((w.onIter i Reader.halt).iter i).stopped = true := by
      rw [onIter_self]
      rfl
    rw [if_pos stopped]
    refine ⟨halted closed, rfl, fun going => ?_⟩
    rw [stopped] at going
    cases going
  · have running : w.closed = false := by simpa using closed
    simp only [running, Bool.false_eq_true, if_false]
    split
    next stopped =>
      refine ⟨h, rfl, fun going => ?_⟩
      rw [stopped] at going
      cases going
    next notStopped =>
      have going : (w.iter i).stopped = false := by simpa using notStopped
      split
      next started =>
        have mem := (h.listening i).mpr ⟨lt, started, going⟩
        obtain ⟨listeners, -, made, opens⟩ := open_rest w
        refine ⟨h.open_ (List.ne_nil_of_mem mem), made, fun _ => ⟨?_, opens running⟩⟩
        rw [listeners]
        exact mem
      next notStarted =>
        have joined := h.add lt running (by simpa using notStarted) going
        obtain ⟨listeners, -, made, opens⟩ :=
          open_rest ((w.onIter i fun r => { r with started := true }).add i)
        have mem : i ∈ ((w.onIter i fun r => { r with started := true }).add i).listeners :=
          List.mem_append_right _ (List.mem_singleton.mpr rfl)
        refine ⟨joined.open_ (List.ne_nil_of_mem mem), made, fun _ => ⟨?_, opens running⟩⟩
        rw [listeners]
        exact mem

/-! Reads. -/

theorem call_quiet (h : Kept keyOf w) {i : Nat}
    (begun : (w.iter i).stopped = false → (w.iter i).started = true) :
    w.Quiet i (w.iter i).call := by
  have alike := Reader.call_alike (w.iter i)
  exact {
    key := alike.key
    started := alike.started
    heard := alike.heard
    sound := (h.readers i).call
    stays := alike.stopped.trans
    runs := fun mem => alike.stopped.trans ((h.listening i).mp mem).2.2
    uncalled := fun unstarted going => by
      have started := begun (alike.stopped.symm.trans going)
      rw [alike.started.symm.trans unstarted] at started
      cases started }

theorem resume_quiet (h : Kept keyOf w) (i : Nat) : w.Quiet i (w.iter i).resume := by
  have alike := Reader.resume_alike (w.iter i)
  exact {
    key := alike.key
    started := alike.started
    heard := alike.heard
    sound := (h.readers i).resume
    stays := alike.stopped.trans
    runs := fun mem => alike.stopped.trans ((h.listening i).mp mem).2.2
    uncalled := fun unstarted going => by
      rw [alike.calls]
      exact h.uncalled i (alike.started.symm.trans unstarted) (alike.stopped.symm.trans going) }

theorem Sound.enter (h : Sound keyOf w) {i : Nat} (lt : i < w.made) :
    Sound keyOf (w.enter i) ∧
      (((w.enter i).iter i).stopped = false → ((w.enter i).iter i).started = true) := by
  unfold World.enter
  split
  next =>
    obtain ⟨sound, -, joined⟩ := h.start lt
    exact ⟨sound, fun going => ((sound.listening i).mp (joined going).1).2.1⟩
  next before =>
    split
    next closed =>
      refine ⟨h.onIter (halt_quiet h.toKept lt closed), fun going => ?_⟩
      rw [onIter_self] at going
      cases going
    next =>
      refine ⟨h, fun going => ?_⟩
      simpa [going] using before

theorem Sound.next (h : Sound keyOf w) {i : Nat} (lt : i < w.made) : Sound keyOf (w.next i) := by
  obtain ⟨sound, begun⟩ := h.enter lt
  exact (sound.onIter (call_quiet sound.toKept begun)).finish i

theorem Sound.resume (h : Sound keyOf w) (i : Nat) : Sound keyOf (w.resume i) := by
  unfold World.resume
  split
  next => exact h
  next => exact (h.onIter (resume_quiet h.toKept i)).finish i

theorem Sound.ready (h : Sound keyOf w) {i : Nat} (lt : i < w.made) : Sound keyOf (w.ready i) := by
  obtain ⟨sound, made, joined⟩ := h.start lt
  have lt' : i < (w.start i).made := by
    rw [made]
    exact lt
  have begun : ((w.start i).iter i).started = true ∨ ((w.start i).iter i).stopped = true := by
    cases stopped : ((w.start i).iter i).stopped with
    | true => exact .inr rfl
    | false => exact .inl ((sound.listening i).mp (joined stopped).1).2.1
  -- What is new among the calls of `ready`.
  have cases_ {j : Nat} {x : Option Nat} (mem : (j, x) ∈ (w.ready i).readies) :
      (j, x) ∈ (w.start i).readies ∨
        j = i ∧ x = if ((w.start i).iter i).stopped then none else (w.start i).opened := by
    rcases List.mem_append.mp mem with before | now
    · exact .inl before
    · exact .inr (Prod.mk.inj (List.mem_singleton.mp now))
  exact {
    sound with
    readied := fun j x mem => by
      rcases cases_ mem with before | ⟨same, -⟩
      · exact sound.readied j x before
      · rw [same]
        exact ⟨lt', begun⟩
    awaited := fun j a mem listens => by
      rcases cases_ mem with before | ⟨-, is⟩
      · exact sound.awaited j a before listens
      · split at is
        · cases is
        · exact .inl is.symm
    unready := fun j mem => by
      rcases cases_ mem with before | ⟨same, is⟩
      · exact sound.unready j before
      · rw [same]
        split at is
        next stopped => exact stopped
        next going =>
          obtain ⟨a, opened⟩ := (joined (by simpa using going)).2
          rw [opened] at is
          cases is }

/-! Messages. -/

theorem Sound.deliver (h : Sound keyOf w) (m : μ) : Sound keyOf (w.deliver keyOf m) := by
  have rest (i : Nat) : ((w.deliver keyOf m).iter i).key = (w.iter i).key ∧
      ((w.deliver keyOf m).iter i).stopped = (w.iter i).stopped ∧
      ((w.deliver keyOf m).iter i).started = (w.iter i).started := by
    dsimp only [World.deliver]
    split
    · exact Reader.push_rest _ m
    · exact ⟨rfl, rfl, rfl⟩
  exact {
    count := h.count
    nodup := h.nodup
    listening := fun i => by
      rw [(rest i).2.1, (rest i).2.2]
      exact h.listening i
    closed := h.closed
    live := h.live
    current := h.current
    released := h.released
    shut := h.shut
    fresh := h.fresh
    readied := fun i x mem => by
      rw [(rest i).2.1, (rest i).2.2]
      exact h.readied i x mem
    awaited := h.awaited
    unready := fun i mem => by
      rw [(rest i).2.1]
      exact h.unready i mem
    readers := fun i => by
      dsimp only [World.deliver]
      split
      · exact (h.readers i).push m
      · exact h.readers i
    uncalled := fun i unstarted going => by
      rw [(rest i).2.2] at unstarted
      rw [(rest i).2.1] at going
      dsimp only [World.deliver]
      split
      next due =>
        have started := ((h.listening i).mp due.1).2.1
        rw [unstarted] at started
        cases started
      next => exact h.uncalled i unstarted going
    heard := fun i => by
      rw [(rest i).1]
      dsimp only [World.deliver]
      rw [due_snoc, h.heard i]
      by_cases due : i ∈ w.listeners ∧ (w.iter i).key = keyOf m
      · simp only [if_pos due, Reader.heard_push]
        simp [due]
      · simp only [if_neg due, decide_eq_true_eq]
        rfl
    unmade := fun i ge mem => by
      rcases List.mem_append.mp mem with before | now
      · exact h.unmade i ge before
      · rw [List.mem_singleton] at now
        cases now
    idle := h.idle }

theorem Sound.hear (h : Sound keyOf w) (a : Nat) (m : μ) : Sound keyOf (w.hear keyOf a m) := by
  unfold World.hear
  split
  · exact h.deliver m
  · exact h

theorem Sound.publish (h : Sound keyOf w) (m : μ) : Sound keyOf (w.publish keyOf m) := by
  unfold World.publish
  generalize w.up = as
  induction as generalizing w with
  | nil => exact h
  | cons a as ih => exact ih (h.hear a m)

theorem Sound.unpublished (h : Sound keyOf w) (m : μ) : Sound keyOf (w.unpublished keyOf m) := by
  unfold World.unpublished
  split
  · exact h.deliver m
  · exact h

/-! The channel and its attempts. -/

theorem Sound.close (h : Sound keyOf w) : Sound keyOf w.close := by
  unfold World.close
  refine Kept.release ?_ rfl
  have rest (i : Nat) : (if i ∈ w.listeners then (w.iter i).stop else w.iter i).key =
        (w.iter i).key ∧
      (if i ∈ w.listeners then (w.iter i).stop else w.iter i).started = (w.iter i).started ∧
      (if i ∈ w.listeners then (w.iter i).stop else w.iter i).log = (w.iter i).log := by
    split
    · exact ⟨(Reader.stop_rest _).1, (Reader.stop_rest _).2.2⟩
    · exact ⟨rfl, rfl, rfl⟩
  have stays (i : Nat) (stopped : (w.iter i).stopped = true) :
      (if i ∈ w.listeners then (w.iter i).stop else w.iter i).stopped = true := by
    split
    · exact (Reader.stop_rest _).2.1
    · exact stopped
  exact {
    count := rfl
    nodup := List.nodup_nil
    listening := fun i => by
      refine ⟨fun mem => absurd mem List.not_mem_nil, fun ⟨lt, started, going⟩ => ?_⟩
      dsimp only at lt started going
      by_cases mem : i ∈ w.listeners
      · rw [if_pos mem, (Reader.stop_rest _).2.1] at going
        cases going
      · rw [if_neg mem] at started going
        exact absurd ((h.listening i).mpr ⟨lt, started, going⟩) mem
    closed := fun _ => rfl
    live := h.live
    current := h.current
    released := h.released
    shut := h.shut
    fresh := h.fresh
    readied := fun i x mem => by
      obtain ⟨lt, either⟩ := h.readied i x mem
      exact ⟨lt, either.imp (rest i).2.1.trans (stays i)⟩
    awaited := fun i a _ mem => absurd mem List.not_mem_nil
    unready := fun i mem => stays i (h.unready i mem)
    readers := fun i => by
      dsimp only
      split
      · exact (h.readers i).stop
      · exact h.readers i
    uncalled := fun i unstarted going => by
      dsimp only at unstarted going ⊢
      by_cases mem : i ∈ w.listeners
      · rw [if_pos mem, (Reader.stop_rest _).2.1] at going
        cases going
      · rw [if_neg mem] at unstarted going ⊢
        exact h.uncalled i unstarted going
    heard := fun i => by
      dsimp only
      rw [(rest i).1, (rest i).2.2, due_lefts, h.heard i]
      simp
    unmade := fun i ge mem => by
      rcases List.mem_append.mp mem with before | now
      · exact h.unmade i ge before
      · obtain ⟨j, -, is⟩ := List.mem_map.mp now
        cases is }

theorem Sound.stream (h : Sound keyOf w) (key : String) (limit : BufferSize) :
    Sound keyOf { w with
      made := w.made + 1
      iter := Function.update w.iter w.made (Reader.made key limit w.closed) } := by
  have other {i : Nat} (ne : i ≠ w.made) :
      Function.update w.iter w.made (Reader.made key limit w.closed) i = w.iter i :=
    Function.update_of_ne ne ..
  have out : w.made ∉ w.listeners := fun mem =>
    absurd ((h.listening w.made).mp mem).1 (Nat.lt_irrefl _)
  exact {
    h with
    listening := fun i => by
      by_cases same : i = w.made
      · rw [same]
        dsimp only
        rw [Function.update_self]
        exact ⟨fun mem => absurd mem out, fun made => by cases made.2.1⟩
      · dsimp only
        rw [other same, h.listening i]
        have bound : i < w.made + 1 ↔ i < w.made := by omega
        rw [bound]
    readied := fun i x mem => by
      obtain ⟨lt, either⟩ := h.readied i x mem
      dsimp only
      rw [other (Nat.ne_of_lt lt)]
      exact ⟨Nat.lt_succ_of_lt lt, either⟩
    unready := fun i mem => by
      dsimp only
      rw [other (Nat.ne_of_lt (h.readied i none mem).1)]
      exact h.unready i mem
    readers := fun i => by
      by_cases same : i = w.made
      · rw [same]
        dsimp only
        rw [Function.update_self]
        exact Reader.sound_made _ _ _
      · dsimp only
        rw [other same]
        exact h.readers i
    uncalled := fun i unstarted going => by
      dsimp only at unstarted going ⊢
      by_cases same : i = w.made
      · rw [same, Function.update_self]
        rfl
      · rw [other same] at unstarted going ⊢
        exact h.uncalled i unstarted going
    heard := fun i => by
      by_cases same : i = w.made
      · rw [same]
        dsimp only
        rw [Function.update_self, due_unjoined _ (h.unmade w.made (Nat.le_refl _))]
        simp only [out, decide_false]
        rfl
      · dsimp only
        rw [other same]
        exact h.heard i
    unmade := fun i ge => h.unmade i (Nat.le_of_succ_le ge) }

/-- An attempt settles, or what was released of it goes on. -/
theorem Sound.onAttempt (h : Sound keyOf w) {a : Nat} {f : Attempt → Attempt} (lt : a < w.attempts)
    (settled : (w.attempt a).state ≠ .inFlight → (f (w.attempt a)).state = (w.attempt a).state)
    (current : w.opened = some a →
      (f (w.attempt a)).closing = false ∧ (f (w.attempt a)).thenClose = false)
    (released : w.opened ≠ some a → (f (w.attempt a)).state = .rejected ∨
      (f (w.attempt a)).closing = true ∨ (f (w.attempt a)).thenClose = true)
    (shut : (f (w.attempt a)).shut = true → (f (w.attempt a)).closing = true) :
    Sound keyOf (w.onAttempt a f) := by
  have own : Function.update w.attempt a (f (w.attempt a)) a = f (w.attempt a) :=
    Function.update_self ..
  have other {b : Nat} (ne : b ≠ a) :
      Function.update w.attempt a (f (w.attempt a)) b = w.attempt b := Function.update_of_ne ne ..
  have stays {b : Nat} {state : Settled} (is : (w.attempt b).state = state)
      (done : state ≠ .inFlight) :
      (Function.update w.attempt a (f (w.attempt a)) b).state = state := by
    by_cases same : b = a
    · rw [same, own, ← is, same]
      rw [same] at is
      exact settled (by rw [is]; exact done)
    · rw [other same]
      exact is
  exact {
    h with
    live := fun b is => ⟨(h.live b is).1, stays (h.live b is).2 (by decide)⟩
    current := fun b is => by
      refine ⟨(h.current b is).1, ?_⟩
      change (Function.update w.attempt a _ b).closing = false ∧
        (Function.update w.attempt a _ b).thenClose = false
      by_cases same : b = a
      · rw [same, own]
        exact current (same ▸ is)
      · rw [other same]
        exact (h.current b is).2
    released := fun b lt ne => by
      change (Function.update w.attempt a _ b).state = .rejected ∨
        (Function.update w.attempt a _ b).closing = true ∨
          (Function.update w.attempt a _ b).thenClose = true
      by_cases same : b = a
      · rw [same, own]
        exact released (same ▸ ne)
      · rw [other same]
        exact h.released b lt ne
    shut := fun b isShut => by
      change (Function.update w.attempt a _ b).shut = true at isShut
      change (Function.update w.attempt a _ b).closing = true
      by_cases same : b = a
      · rw [same, own] at isShut ⊢
        exact shut isShut
      · rw [other same] at isShut ⊢
        exact h.shut b isShut
    fresh := fun b ge => by
      change Function.update w.attempt a _ b = {}
      rw [other (Nat.ne_of_gt (Nat.lt_of_lt_of_le lt ge))]
      exact h.fresh b ge
    awaited := fun i b mem listens =>
      (h.awaited i b mem listens).imp_right fun failed => stays failed (by decide) }

theorem Sound.settle (h : Sound keyOf w) {a : Nat} (lt : a < w.attempts)
    (flying : (w.attempt a).state = .inFlight) (state : Settled) :
    Sound keyOf (w.onAttempt a fun s => { s with state }) := by
  refine h.onAttempt lt (absurd flying) (fun is => (h.current a is).2) (fun ne => ?_) (h.shut a)
  rcases h.released a lt ne with failed | closes
  · rw [flying] at failed
    cases failed
  · exact .inr closes

theorem Sound.awaitedStep (h : Sound keyOf w) (a : Nat) :
    Sound keyOf (step keyOf w (.awaited a)) := by
  rw [step]
  split
  next current =>
    cases state : (w.attempt a).state with
    | inFlight => exact h
    | resolved =>
        exact {
          h with
          live := fun b is => by
            cases is
            exact ⟨current, state⟩ }
    | rejected =>
        have only {b : Nat} (is : w.opened = some b) : b = a :=
          Option.some.inj (is.symm.trans current)
        exact {
          h with
          live := fun b is => by
            have live := h.live b is
            rw [only live.1, state] at live
            cases live.2
          current := fun b is => by cases is
          released := fun b lt _ => by
            by_cases same : b = a
            · rw [same]
              exact .inl state
            · exact h.released b lt fun is => same (only is)
          awaited := fun i b mem listens => by
            rcases h.awaited i b mem listens with is | failed
            · rw [only is]
              exact .inr state
            · exact .inr failed
          idle := fun _ => rfl }
  next => exact h

theorem Sound.reactStep (h : Sound keyOf w) (a : Nat) : Sound keyOf (step keyOf w (.react a)) := by
  rw [step]
  split
  next waits =>
    have lt : a < w.attempts := by
      by_contra ge
      rw [h.fresh a (Nat.le_of_not_lt ge)] at waits
      cases waits
    have old : w.opened ≠ some a := fun is => by
      rw [(h.current a is).2.2] at waits
      cases waits
    cases state : (w.attempt a).state with
    | inFlight => exact h
    | resolved =>
        exact h.onAttempt lt (fun _ => rfl) (fun is => absurd is old) (fun _ => .inr (.inl rfl))
          fun _ => rfl
    | rejected =>
        exact h.onAttempt lt (fun _ => rfl) (fun is => absurd is old) (fun _ => .inl state)
          (h.shut a)
  next => exact h

theorem Sound.shutStep (h : Sound keyOf w) (a : Nat) : Sound keyOf (step keyOf w (.shut a)) := by
  rw [step]
  split
  next closing =>
    have lt : a < w.attempts := by
      by_contra ge
      rw [h.fresh a (Nat.le_of_not_lt ge)] at closing
      cases closing
    refine h.onAttempt lt (fun _ => rfl) (fun is => (h.current a is).2) (fun _ => ?_)
      fun _ => closing
    exact .inr (.inl closing)
  next => exact h

theorem Sound.step (h : Sound keyOf w) (act : Act μ) : Sound keyOf (step keyOf w act) := by
  cases act with
  | stream key limit => exact h.stream key limit
  | next i =>
      rw [World.step]
      split
      next lt => exact h.next lt
      next => exact h
  | resume i =>
      rw [World.step]
      split
      next => exact h.resume i
      next => exact h
  | ready i =>
      rw [World.step]
      split
      next lt => exact h.ready lt
      next => exact h
  | leave i =>
      rw [World.step]
      split
      next => exact h.leave i
      next => exact h
  | close => exact h.close
  | hear a m => exact h.hear a m
  | publish m => exact h.publish m
  | unpublished m => exact h.unpublished m
  | resolve a =>
      rw [World.step]
      split
      next can => exact h.settle can.1 can.2 .resolved
      next => exact h
  | reject a =>
      rw [World.step]
      split
      next can => exact h.settle can.1 can.2 .rejected
      next => exact h
  | awaited a => exact h.awaitedStep a
  | react a => exact h.reactStep a
  | shut a => exact h.shutStep a

theorem run_sound (fallback : Bool) (acts : List (Act μ)) :
    Sound keyOf (run keyOf { fallback } acts) := by
  induction acts using List.reverseRecOn with
  | nil => exact Kept.sound_made fallback
  | append_singleton acts act ih =>
      rw [run, List.foldl_append]
      exact ih.step act

end Lemmas

end World
end NxgtData.Redis.Streams
