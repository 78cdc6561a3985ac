import NxgtData.Backup.Lease
import Mathlib.Data.List.Induction

/-!
The lock excludes. No other writer, by its own clock, finds a lease that is sure to be
held a whole lease past its end, so of two writers that hold one, the later to list
found the other's file, and gave up.
-/
namespace NxgtData.Backup.Lock

variable {lease slack : Nat} {wall : Nat → Nat → Int}

theorem World.writer_set (w : World) (i j : Nat) (x : Writer) :
    (w.set i x).writer j = if j = i then x else w.writer j :=
  Function.update_apply ..

theorem World.set_self (w : World) (i : Nat) (x : Writer) : (w.set i x).writer i = x :=
  Function.update_self ..

/-- The repository and its writers. A writer that deletes another's file has found it
stale; and of two that have listed, one has yet to read the other's file. -/
structure Excludes (lease slack : Nat) (wall : Nat → Nat → Int) (w : World) : Prop where
  kept : ∀ i, Kept lease slack w.now (wall i) (w.writer i)
  beyond : ∀ i, w.count ≤ i → (w.writer i).phase = .absent
  stale : ∀ i v due k, (w.writer i).phase = .forgetting v due k → Spent w.now (w.writer k)
  apart : ∀ i j a b, i ≠ j → (w.writer i).phase.due = some a → (w.writer j).phase.due = some b →
    (w.writer i).held w.now = true → (w.writer j).held w.now = true → i ∈ b ∨ j ∈ a

namespace Excludes
variable {w : World}

theorem move (h : Excludes lease slack wall w) {i : Nat} {x : Writer}
    (kept : Kept lease slack w.now (wall i) x) (follows : Follows w.now (w.writer i) x)
    (stale : ∀ v due k, x.phase = .forgetting v due k → Spent w.now (w.writer k))
    (apart : ∀ a, x.phase.due = some a → x.held w.now = true → ∀ j b, j ≠ i →
      (w.writer j).phase.due = some b → (w.writer j).held w.now = true → i ∈ b ∨ j ∈ a) :
    Excludes lease slack wall (w.set i x) where
  kept j := by
    rw [World.writer_set]
    split
    next eq =>
      subst eq
      exact kept
    next => exact h.kept j
  beyond j le := by
    rw [World.writer_set]
    split
    next eq =>
      subst eq
      exact follows.absent (h.beyond j le)
    next => exact h.beyond j le
  stale j v due k is := by
    have spent : Spent w.now (w.writer k) := by
      rw [World.writer_set] at is
      split at is
      next => exact stale v due k is
      next => exact h.stale j v due k is
    rw [World.writer_set]
    split
    next eq =>
      subst eq
      exact spent.follows follows
    next => exact spent
  apart j k a b ne left right leftHeld rightHeld := by
    rw [World.writer_set] at left leftHeld right rightHeld
    split at left
    next eq =>
      subst eq
      rw [if_pos rfl] at leftHeld
      rw [if_neg ne.symm] at right rightHeld
      exact apart a left leftHeld k b ne.symm right rightHeld
    next other =>
      rw [if_neg other] at leftHeld
      split at right
      next eq =>
        subst eq
        rw [if_pos rfl] at rightHeld
        exact (apart b right rightHeld j a other left leftHeld).symm
      next other' =>
        rw [if_neg other'] at rightHeld
        exact h.apart j k a b ne left right leftHeld rightHeld

theorem quiet (h : Excludes lease slack wall w) {i : Nat} {x : Writer}
    (kept : Kept lease slack w.now (wall i) x) (quiet : Quiet w.now (w.writer i) x) :
    Excludes lease slack wall (w.set i x) := by
  refine h.move kept quiet.toFollows (fun v due k is => h.stale i v due k (quiet.forgetting v due k is))
    fun a is held j b ne other otherHeld => ?_
  have due := quiet.due a is
  have wrote : (w.writer i).phase.wrote = true := by
    have live := Phase.live_of_due due
    revert live
    cases (w.writer i).phase <;> first | exact fun _ => rfl | exact nofun
  exact h.apart i j a b ne.symm due other (quiet.held wrote held) otherHeld

theorem tick (h : Excludes lease slack wall w) (n : Nat) :
    Excludes lease slack wall { w with now := w.now + n } where
  kept i := (h.kept i).later n
  beyond := h.beyond
  stale i v due k is := by
    obtain ⟨wrote, out⟩ := h.stale i v due k is
    exact ⟨wrote, fun both => out ⟨both.1, held_later both.2⟩⟩
  apart i j a b ne left right leftHeld rightHeld :=
    h.apart i j a b ne left right (held_later leftHeld) (held_later rightHeld)

theorem acquire (h : Excludes lease slack wall w) (operation : Operation) :
    Excludes lease slack wall (w.acquire lease wall operation) := by
  have absent := h.beyond w.count (Nat.le_refl _)
  have unwritten : (w.writer w.count).phase.wrote ≠ true := by
    rw [absent]
    exact nofun
  let record : LockRecord := { operation, expiresAt := wall w.count w.now + lease }
  let x : Writer := { operation, phase := .begun record w.now }
  have writer (i : Nat) : (w.acquire lease wall operation).writer i = if i = w.count then x else w.writer i :=
    World.writer_set w w.count i x
  refine ⟨fun i => ?_, fun i le => ?_, fun i v due k is => ?_, fun i j a b ne left right leftHeld rightHeld => ?_⟩
  · rw [writer]
    split
    next eq =>
      subst eq
      refine ⟨fun _ => ⟨rfl, rfl, rfl, rfl⟩, ?_, Nat.zero_le _, nofun, fun v due is => ?_, nofun, nofun,
        nofun⟩
      · rintro r since ⟨⟩
        exact Int.le_refl _
      · rcases is with is | ⟨k, is⟩ <;> cases is
    next => exact h.kept i
  · have lt : w.count < i := le
    rw [writer, if_neg (by omega)]
    exact h.beyond i (by omega)
  · rw [writer] at is
    split at is
    next => cases is
    next =>
      have spent := h.stale i v due k is
      rw [writer, if_neg]
      · exact spent
      · rintro rfl
        exact unwritten spent.1
  · rw [writer] at left leftHeld right rightHeld
    split at left
    next => cases left
    next here =>
      split at right
      next => cases right
      next there =>
        rw [if_neg here] at leftHeld
        rw [if_neg there] at rightHeld
        exact h.apart i j a b ne left right leftHeld rightHeld

/-- A writer that has listed, whose lease is sure to be held, has its file there. -/
theorem sure_of_due (h : Excludes lease slack wall w) {j : Nat} {b : List Nat}
    (due : (w.writer j).phase.due = some b) (held : (w.writer j).held w.now = true) :
    (w.writer j).sure = true ∧ j < w.count := by
  have live := Phase.live_of_due due
  refine ⟨((h.kept j).firm live held).sure fun writing => ?_, Nat.lt_of_not_le fun le => ?_⟩
  · rw [writing] at due
    cases due
  · rw [h.beyond j le] at due
    cases due

theorem list (h : Excludes lease slack wall w) (i : Nat) (shown : List Nat) :
    Excludes lease slack wall (w.list wall i shown) := by
  unfold World.list
  split
  next may =>
    obtain ⟨placed, shows⟩ := may
    have there : (w.writer i).phase ≠ .writing := by
      rw [placed]
      exact nofun
    refine h.move ((h.kept i).goOn rfl there (fun _ => ?_) fun v due is => ?_)
      ⟨fun is => ?_, fun _ => rfl, fun _ _ => ?_, fun _ => id⟩ nofun ?_
    · rw [placed]
      rfl
    · rcases is with is | ⟨k, is⟩ <;> cases is
      exact ⟨w.now, Nat.le_refl _, rfl⟩
    · rw [placed] at is
      cases is
    · rw [placed]
      rfl
    · rintro a ⟨⟩ - j b ne due held
      obtain ⟨sure, lt⟩ := h.sure_of_due due held
      exact Or.inr (List.mem_filter.mpr ⟨shows j lt sure, by simpa using ne⟩)
  next => exact h

/-- A writer that is looking has no more to read of a file that does not count. -/
theorem seen (h : Excludes lease slack wall w) {i k : Nat} {v : Int} {due : List Nat}
    (phase : (w.writer i).phase.due = some due) (reads : ∃ u ≤ w.now, v = wall i u)
    (spent : ∀ b, (w.writer k).phase.due = some b → (w.writer k).held w.now = true → False) :
    Excludes lease slack wall
      (w.set i { w.writer i with phase := .looking v (due.erase k) }) := by
  have live := Phase.live_of_due phase
  obtain ⟨there, unwritten⟩ := Phase.ne_of_due phase
  refine h.move ((h.kept i).goOn rfl unwritten (fun _ => live) fun v' due' is => ?_)
    ⟨fun is => absurd is there, fun _ => rfl, fun _ _ => live, fun _ => id⟩ nofun ?_
  · rcases is with is | ⟨k, is⟩ <;> cases is
    exact reads
  · rintro a ⟨⟩ held j b ne other otherHeld
    refine (h.apart i j due b ne.symm phase other held otherHeld).imp_right fun mem => ?_
    refine (List.mem_erase_of_ne ?_).mpr mem
    rintro rfl
    exact spent b other otherHeld

theorem refuse (h : Excludes lease slack wall w) {i : Nat} {due : List Nat}
    (phase : (w.writer i).phase.due = some due) :
    Excludes lease slack wall (w.set i (w.writer i).refuse) := by
  obtain ⟨there, unwritten⟩ := Phase.ne_of_due phase
  exact h.quiet (kept_refuse (h.kept i) ((h.kept i).refusable unwritten)) (quiet_refuse there)

theorem look (h : Excludes lease slack wall w) (clocks : Clocks lease slack wall) (i j : Nat) :
    Excludes lease slack wall (w.look lease i j) := by
  unfold World.look
  split
  next v due phase =>
    have isDue : (w.writer i).phase.due = some due := by rw [phase]; rfl
    obtain ⟨u, le, rfl⟩ := (h.kept i).reads v due (Or.inl phase)
    split
    next =>
      split
      next none =>
        refine h.seen isDue ⟨u, le, rfl⟩ fun b other held => ?_
        exact (h.kept j).sure (h.sure_of_due other held).1 none
      next => exact h.refuse isDue
      next record file =>
        split
        next => exact h.refuse isDue
        next stale =>
          have spent : Spent w.now (w.writer j) := by
            refine ⟨(h.kept j).wrote_of_file file, fun both => ?_⟩
            have covers := ((h.kept j).firm both.1 both.2).file record file
            have out := covers.stale clocks (Int.not_le.mp stale)
            have held := both.2
            simp only [Writer.held, Bool.and_eq_true, decide_eq_true_eq] at held
            omega
          let y : Writer := { w.writer j with deletes := (w.writer j).deletes + 1 }
          have marked : Excludes lease slack wall (w.set j y) :=
            h.quiet ((h.kept j).of_spent spent.2 spent.1 rfl (Or.inl rfl) (h.kept j).reads (h.kept j).sure
              (h.kept j).awaited) (.of_phase rfl id)
          have same : ((w.set j y).writer i).phase = (w.writer i).phase ∧
              ((w.set j y).writer i).held w.now = (w.writer i).held w.now := by
            rw [World.writer_set]
            split
            next eq =>
              subst eq
              exact ⟨rfl, rfl⟩
            next => exact ⟨rfl, rfl⟩
          refine marked.move ((h.kept i).goOn rfl (Phase.ne_of_due isDue).2 (fun _ => ?_) ?_)
            ⟨fun is => absurd (same.1.symm.trans is) (Phase.ne_of_due isDue).1, fun _ => rfl, fun _ _ => ?_, fun _ held => same.2.trans held⟩ ?_ ?_
          · rw [phase]
            rfl
          · intro v' due' is
            rcases is with is | ⟨k, is⟩ <;> cases is
            exact ⟨u, le, rfl⟩
          · rw [same.1, phase]
            rfl
          · rintro v' due' k ⟨⟩
            rw [World.set_self]
            exact spent
          · rintro a ⟨⟩ held k b ne other otherHeld
            exact marked.apart i k due b ne.symm (same.1 ▸ isDue) other (same.2.trans held) otherHeld
    next => exact h
  next => exact h

theorem step (h : Excludes lease slack wall w) (clocks : Clocks lease slack wall) (a : Act)
    (settled : ∀ i k, a ≠ .late i k) : Excludes lease slack wall (w.step lease slack wall a) := by
  cases a with
  | tick n => exact h.tick n
  | acquire operation => exact h.acquire operation
  | write i => exact h.quiet (kept_write (h.kept i)) (quiet_write _)
  | land i => exact h.quiet (kept_land (h.kept i)) quiet_land
  | tear i => exact h.quiet (kept_tear (h.kept i)) quiet_tear
  | resolve i => exact h.quiet (kept_resolve (h.kept i)) quiet_resolve
  | reject i => exact h.quiet (kept_reject (h.kept i)) quiet_reject
  | late i k => exact absurd rfl (settled i k)
  | erase i => exact h.quiet (kept_erase (h.kept i)) quiet_erase
  | list i shown => exact h.list i shown
  | look i j => exact h.look clocks i j
  | forgot i =>
      simp only [World.step]
      split
      next v due k phase =>
        refine h.seen (by rw [phase]; rfl) ((h.kept i).reads v due (Or.inr ⟨k, phase⟩))
          fun b other held => ?_
        exact (h.stale i v due k phase).2 ⟨Phase.live_of_due other, held⟩
      next => exact h
  | listed i =>
      simp only [World.step]
      split
      next v phase =>
        refine h.quiet ((h.kept i).goOn rfl (by rw [phase]; exact nofun) (fun _ => by rw [phase]; rfl)
          fun v' due is => ?_) ⟨⟨fun is => ?_, fun _ => rfl, fun _ _ => ?_, fun _ => id⟩, fun due is => ?_,
          nofun⟩
        · rcases is with is | ⟨k, is⟩ <;> cases is
        · rw [phase] at is
          cases is
        · rw [phase]
          rfl
        · rw [phase]
          exact is
      next => exact h
  | fail i =>
      refine h.quiet ?_ quiet_fail
      unfold Writer.fail
      split
      case h_4 => exact h.kept i
      all_goals
        next phase =>
        refine kept_refuse (h.kept i) ((h.kept i).refusable ?_)
        rw [phase]
        exact nofun
  | renew i => exact h.quiet (kept_renew (h.kept i)) quiet_renew
  | check i =>
      simp only [World.step]
      split
      next acquired =>
        refine h.quiet (kept_check (h.kept i) ?_) quiet_check
        revert acquired
        cases (w.writer i).phase <;> first | exact fun _ => rfl | exact nofun
      next => exact h
  | release i =>
      simp only [World.step]
      split
      next phase =>
        have there : (w.writer i).phase ≠ .writing := by
          rw [phase]
          exact nofun
        refine h.quiet ((h.kept i).goOn rfl there nofun fun v due is => ?_)
          (.of_dead rfl rfl (by rw [phase]; exact nofun) id)
        rcases is with is | ⟨k, is⟩ <;> cases is
      next => exact h
  | unlock i =>
      simp only [World.step]
      split
      next ready =>
        obtain ⟨phase, renewal⟩ := ready
        refine h.quiet ((h.kept i).of_spent (fun both => by cases both.1) rfl rfl (Or.inl rfl)
          (fun v due is => ?_) (h.kept i).sure fun p is => ?_)
          (.of_dead rfl rfl (by rw [phase]; exact nofun) id)
        · rcases is with is | ⟨k, is⟩ <;> cases is
        · refine Or.inr (((h.kept i).awaited p is).resolve_left ?_)
          rw [phase]
          exact nofun
      next => exact h

theorem empty : Excludes lease slack wall {} where
  kept _ := by
    refine ⟨fun _ => ⟨rfl, rfl, rfl, rfl⟩, nofun, Nat.zero_le _, nofun, fun v due is => ?_, nofun, nofun,
      nofun⟩
    rcases is with is | ⟨k, is⟩ <;> cases is
  beyond _ _ := rfl
  stale := nofun
  apart := nofun

end Excludes

/-- A lease that is out stays out. -/
def Stays (now : Nat) (x x' : Writer) : Prop :=
  x.phase.wrote = true → x.held now = false → x'.phase.wrote = true ∧ x'.held now = false

theorem Follows.stays {x x' : Writer} (follows : Follows now x x') : Stays now x x' := by
  intro wrote out
  refine ⟨follows.wrote wrote, ?_⟩
  cases held : x'.held now with
  | false => rfl
  | true =>
      rw [follows.held wrote held] at out
      cases out

theorem stays_set {w : World} {i : Nat} {x : Writer} (stays : Stays w.now (w.writer i) x) (j : Nat) :
    Stays w.now (w.writer j) ((w.set i x).writer j) := by
  rw [World.writer_set]
  split
  next eq =>
    subst eq
    exact stays
  next => exact fun wrote out => ⟨wrote, out⟩

theorem stays_phase {x : Writer} {phase : Phase} {deletes : Nat} (wrote : phase.wrote = true) :
    Stays now x { x with phase, deletes } :=
  fun _ out => ⟨wrote, out⟩

theorem look_stays (w : World) (i j k : Nat) :
    Stays w.now (w.writer k) ((w.look lease i j).writer k) := by
  have same : Stays w.now (w.writer k) (w.writer k) := fun wrote out => ⟨wrote, out⟩
  unfold World.look
  split
  next =>
    split
    next =>
      split
      next => exact stays_set (stays_phase rfl) k
      next => exact stays_set (stays_phase rfl) k
      next =>
        split
        next => exact stays_set (stays_phase rfl) k
        next =>
          intro wrote out
          have marked := stays_set (w := w) (i := j)
            (x := { w.writer j with deletes := (w.writer j).deletes + 1 }) (fun wrote out => ⟨wrote, out⟩)
          rw [World.writer_set]
          split
          next eq =>
            subst eq
            exact ⟨rfl, out⟩
          next => exact marked k wrote out
    next => exact same
  next => exact same

theorem step_stays (a : Act) {w : World} {i : Nat} (wrote : (w.writer i).phase.wrote = true)
    (beyond : ∀ i, w.count ≤ i → (w.writer i).phase = .absent)
    (out : (w.writer i).held w.now = false) :
    ((w.step lease slack wall a).writer i).phase.wrote = true ∧
      ((w.step lease slack wall a).writer i).held (w.step lease slack wall a).now = false := by
  have same : Stays w.now (w.writer i) (w.writer i) := fun wrote out => ⟨wrote, out⟩
  cases a with
  | tick n =>
      refine ⟨wrote, ?_⟩
      cases held : (w.writer i).held (w.now + n) with
      | false => exact held
      | true =>
          rw [held_later held] at out
          cases out
  | acquire operation =>
      have other : i ≠ w.count := by
        rintro rfl
        rw [beyond _ (Nat.le_refl _)] at wrote
        cases wrote
      have writer : (w.acquire lease wall operation).writer i = w.writer i := by
        refine (World.writer_set w w.count i _).trans ?_
        exact if_neg other
      change ((w.acquire lease wall operation).writer i).phase.wrote = true ∧
        ((w.acquire lease wall operation).writer i).held w.now = false
      rw [writer]
      exact ⟨wrote, out⟩
  | write => exact stays_set (quiet_write _).stays i wrote out
  | land => exact stays_set quiet_land.stays i wrote out
  | tear => exact stays_set quiet_tear.stays i wrote out
  | resolve => exact stays_set quiet_resolve.stays i wrote out
  | reject => exact stays_set quiet_reject.stays i wrote out
  | late _ k => exact stays_set (quiet_landLate k).stays i wrote out
  | erase => exact stays_set quiet_erase.stays i wrote out
  | fail => exact stays_set quiet_fail.stays i wrote out
  | renew => exact stays_set quiet_renew.stays i wrote out
  | look j k =>
      have now : (w.look lease j k).now = w.now := by
        unfold World.look
        repeat' split
        all_goals rfl
      change ((w.look lease j k).writer i).phase.wrote = true ∧
        ((w.look lease j k).writer i).held (w.look lease j k).now = false
      rw [now]
      exact look_stays w j k i wrote out
  | list j shown =>
      simp only [World.step, World.list]
      split
      next => exact stays_set (stays_phase rfl) i wrote out
      next => exact same wrote out
  | check =>
      simp only [World.step]
      split
      next => exact stays_set quiet_check.stays i wrote out
      next => exact same wrote out
  | forgot | listed | release | unlock =>
      simp only [World.step]
      split
      next => exact stays_set (stays_phase rfl) i wrote out
      next => exact same wrote out

/-! Runs. -/

/-- No write lands once it has rejected. -/
def Settled (acts : List Act) : Prop := ∀ a ∈ acts, ∀ i k, a ≠ .late i k

theorem run_snoc (acts : List Act) (a : Act) :
    World.run lease slack wall (acts ++ [a]) =
      (World.run lease slack wall acts).step lease slack wall a := by
  rw [World.run, List.foldl_append]
  rfl

theorem run_keeps (clocks : Clocks lease slack wall) (acts : List Act) (settled : Settled acts) :
    Excludes lease slack wall (World.run lease slack wall acts) := by
  induction acts using List.reverseRecOn with
  | nil => exact .empty
  | append_singleton acts a ih =>
      rw [run_snoc]
      have before := ih fun b mem => settled b (List.mem_append_left _ mem)
      exact before.step clocks a (settled a (List.mem_append_right _ (List.mem_singleton.mpr rfl)))

theorem run_stays (clocks : Clocks lease slack wall) {before after : List Act}
    (settled : Settled (before ++ after)) {i : Nat}
    (wrote : ((World.run lease slack wall before).writer i).phase.wrote = true)
    (out : ((World.run lease slack wall before).writer i).held
      (World.run lease slack wall before).now = false) :
    ((World.run lease slack wall (before ++ after)).writer i).phase.wrote = true ∧
      ((World.run lease slack wall (before ++ after)).writer i).held
        (World.run lease slack wall (before ++ after)).now = false := by
  induction after using List.reverseRecOn with
  | nil =>
      rw [List.append_nil]
      exact ⟨wrote, out⟩
  | append_singleton after a ih =>
      rw [← List.append_assoc] at settled ⊢
      have earlier : Settled (before ++ after) := fun b mem => settled b (List.mem_append_left _ mem)
      obtain ⟨wrote, out⟩ := ih earlier
      rw [run_snoc]
      exact step_stays a wrote (run_keeps clocks _ earlier).beyond out

/-- The lock excludes, over any number of writers and any order of their acts: of two
whose `acquireLock` resolved and that have not released, `held()` is not true of both
at once, and what it once says is out stays out. The wall clocks may be apart, and
away from the monotonic ones, by less than a lease minus the time to begin a write;
a write that rejected lands no more. -/
theorem run_excludes (clocks : Clocks lease slack wall) (acts : List Act) (settled : Settled acts) :
    let w := World.run lease slack wall acts
    (∀ i j, i ≠ j → (w.writer i).phase = .held → (w.writer j).phase = .held →
      ¬ ((w.writer i).held w.now = true ∧ (w.writer j).held w.now = true)) ∧
    ∀ before after i, acts = before ++ after →
      ((World.run lease slack wall before).writer i).phase.acquired = true →
      ((World.run lease slack wall before).writer i).held
        (World.run lease slack wall before).now = false →
      (w.writer i).held w.now = false := by
  intro w
  have excludes := run_keeps clocks acts settled
  refine ⟨fun i j ne left right both => ?_, ?_⟩
  · have apart := excludes.apart i j [] [] ne (by rw [left]; rfl) (by rw [right]; rfl) both.1 both.2
    exact apart.elim List.not_mem_nil List.not_mem_nil
  · rintro before after i rfl acquired out
    refine (run_stays clocks settled ?_ out).2
    revert acquired
    cases ((World.run lease slack wall before).writer i).phase <;>
      first | exact fun _ => rfl | exact nofun

/-! Leases of 30, and writers that take the lock one after the other. -/

def taking (i : Nat) (shown : List Nat) : List Act :=
  [.acquire .create, .write i, .land i, .resolve i, .list i shown]

/-- A writer that finds the lock of another stale. -/
def takingOver (i j : Nat) : List Act :=
  taking i [j, i] ++ [.look i j, .erase j, .forgot i, .listed i]

def renewing (i time : Nat) : List Act := [.tick time, .renew i, .write i, .land i, .resolve i]

/-- The second writer's clock is 20 ahead, and finds the first one's lock stale at 41. -/
theorem run_excludes_takingOver :
    let w := World.run 30 1 (fun i t => t + 20 * (i % 2 : Nat))
      (taking 0 [0] ++ [.listed 0, .tick 41] ++ takingOver 1 0)
    ¬ ((w.writer 0).held w.now = true ∧ (w.writer 1).held w.now = true) := by
  have clocks : Clocks 30 1 (fun i t => t + 20 * (i % 2 : Nat)) := by
    intro i j s t
    dsimp only
    omega
  refine (run_excludes clocks _ ?_).1 0 1 (by decide) (by decide) (by decide)
  intro a mem i k eq
  subst eq
  simp [taking, takingOver] at mem

/-- The first writer has released its lock when the second takes it. -/
def released : List Act :=
  taking 0 [0] ++ [.listed 0, .release 0, .unlock 0, .erase 0] ++ taking 1 [1] ++ [.listed 1]

/-- The first writer's first renewal rejects, and lands after three others. -/
def landedLate : List Act :=
  taking 0 [0] ++ [.listed 0, .tick 10, .renew 0, .write 0, .reject 0] ++ renewing 0 10 ++
    renewing 0 25 ++ renewing 0 25 ++ [.tick 1, .late 0 0] ++ takingOver 1 0

/-- Two writers whose clocks always agree, and are set forward together. -/
def setForward : List Act := taking 0 [0] ++ [.listed 0, .tick 10] ++ takingOver 1 0

/-- In each of the three, both writers' `held()` is true at the end. -/
theorem released_holds_twice :
    (let w := World.run 30 0 (fun _ t => t) released;
      w.holds 0 = true ∧ w.holds 1 = true) ∧
    (let w := World.run 30 0 (fun _ t => t) landedLate;
      (w.writer 0).phase = .held ∧ w.holds 0 = true ∧ w.holds 1 = true) ∧
    (let w := World.run 30 0 (fun _ t => if t < 5 then t else t + 100) setForward;
      (w.writer 0).phase = .held ∧ w.holds 0 = true ∧ w.holds 1 = true) := by
  refine ⟨by decide, by decide, by decide⟩

end NxgtData.Backup.Lock
