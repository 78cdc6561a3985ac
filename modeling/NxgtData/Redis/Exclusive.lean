import Mathlib.Data.List.Induction
import NxgtData.Redis.WithLock

/-!
A call whose key is gone before its release can only reject, so that a call that resolves
held the key from its `SET` to its release, and of two that overlap one rejects.
-/
namespace NxgtData.Redis.WithLock.World

/-! The key. -/

theorem call_put (w : World) (i : Nat) (c : Call) : (w.put i c).call i = c :=
  Function.update_self _ _ _

theorem call_put_of_ne (w : World) {i j : Nat} (other : i ≠ j) (c : Call) :
    (w.put j c).call i = w.call i := Function.update_of_ne other _ _

theorem call_setNx (w : World) (token ttl : Nat) : (w.setNx token ttl).1.call = w.call := by
  rw [setNx]
  split
  next => rfl
  next => split <;> rfl

theorem call_compareDelete (w : World) (token : Nat) : (w.compareDelete token).1.call = w.call := by
  rw [compareDelete]
  split <;> rfl

/-- A `SET` writes its own token, and only where there is none. -/
theorem key_setNx (w : World) (token ttl : Nat) :
    (w.setNx token ttl).1.key = w.key ∨
      w.holder = none ∧ (w.setNx token ttl).1.holder = some token := by
  rw [setNx]
  split
  next => exact .inl rfl
  next some_ =>
    split
    next free => exact .inr ⟨free, if_pos (by show w.now < w.now + ttl; omega)⟩
    next => exact .inl rfl

theorem now_setNx (w : World) (token ttl : Nat) : (w.setNx token ttl).1.now = w.now := by
  rw [setNx]
  split
  next => rfl
  next => split <;> rfl

theorem holder_congr {w w' : World} (key : w'.key = w.key) (now : w'.now = w.now) :
    w'.holder = w.holder := by
  rw [holder, holder, key, now]

theorem holder_setNx {w : World} {token ttl i : Nat} (is : (w.setNx token ttl).1.holder = some i) :
    i = token ∨ w.holder = some i := by
  rcases key_setNx w token ttl with same | ⟨-, own⟩
  · rw [holder_congr same (now_setNx w token ttl)] at is
    exact .inr is
  · rw [own, Option.some.injEq] at is
    exact .inl is.symm

/-- A release deletes the key only under its own token. -/
theorem key_compareDelete (w : World) (token : Nat) :
    (w.compareDelete token).1.key = w.key ∨ w.holder = some token := by
  rw [compareDelete]
  split
  next own => exact .inr own
  next => exact .inl rfl

theorem holder_compareDelete {w : World} {token i : Nat}
    (is : (w.compareDelete token).1.holder = some i) : w.holder = some i := by
  rw [compareDelete] at is
  split at is
  next => cases is
  next => exact is

theorem compareDelete_lost {w : World} {token : Nat} (other : w.holder ≠ some token) :
    (w.compareDelete token).2 = 0 := by
  rw [compareDelete, if_neg other]

theorem holder_tick {w : World} {time i : Nat}
    (is : ({ w with now := w.now + time } : World).holder = some i) : w.holder = some i := by
  rw [holder] at is ⊢
  dsimp only at is
  split at is
  next => cases is
  next token expires key =>
    split at is
    next early =>
      rw [if_pos (by omega)]
      exact is
    next => cases is

/-! What one act can do to the others. -/

end World

/-- The call an act is of. -/
def Act.caller : Act → Option Nat
  | .tick _ => none
  | .withLock i _ _ _ | .set i | .answer i _ | .wake i | .settle i _ | .release i | .answered i
  | .fail i | .lateSet i | .lateRelease i => some i

namespace World

/-- An act of another leaves a call as it is, and gives it no key. -/
theorem step_frame {a : Act} {w : World} {i : Nat} (other : a.caller ≠ some i) :
    (w.step a).call i = w.call i ∧ ((w.step a).holder = some i → w.holder = some i) := by
  have put {w' : World} {j : Nat} (ne : i ≠ j) (c : Call) (calls : w'.call = w.call)
      (holds : w'.holder = some i → w.holder = some i) :
      (w'.put j c).call i = w.call i ∧ ((w'.put j c).holder = some i → w.holder = some i) :=
    ⟨(call_put_of_ne w' ne c).trans (congrFun calls i), holds⟩
  cases a with
  | tick time => exact ⟨rfl, holder_tick⟩
  | withLock j ttl wait clock =>
      have ne : i ≠ j := fun is => other (congrArg some is.symm)
      rw [step]
      split
      next => exact put ne _ rfl id
      next => exact ⟨rfl, id⟩
  | set j =>
      have ne : i ≠ j := fun is => other (congrArg some is.symm)
      rw [step, set]
      split
      next => exact put ne _ (call_setNx w j _) fun is => (holder_setNx is).resolve_left ne
      next => exact ⟨rfl, id⟩
  | answer j clock =>
      have ne : i ≠ j := fun is => other (congrArg some is.symm)
      rw [step, answer]
      split
      next => exact put ne _ rfl id
      next => split <;> exact put ne _ rfl id
      next => exact put ne _ rfl id
      next => exact ⟨rfl, id⟩
  | wake j =>
      have ne : i ≠ j := fun is => other (congrArg some is.symm)
      rw [step]
      split
      next => exact put ne _ rfl id
      next => exact ⟨rfl, id⟩
  | settle j resolves =>
      have ne : i ≠ j := fun is => other (congrArg some is.symm)
      rw [step, settle]
      split
      next => split <;> exact put ne _ rfl id
      next => exact ⟨rfl, id⟩
  | release j =>
      have ne : i ≠ j := fun is => other (congrArg some is.symm)
      rw [step, release]
      split
      next => exact put ne _ (call_compareDelete w j) holder_compareDelete
      next => exact put ne _ (call_compareDelete w j) holder_compareDelete
      next => exact ⟨rfl, id⟩
  | answered j =>
      have ne : i ≠ j := fun is => other (congrArg some is.symm)
      rw [step, answered]
      split
      next => split <;> exact put ne _ rfl id
      next => exact put ne _ rfl id
      next => exact ⟨rfl, id⟩
  | fail j =>
      have ne : i ≠ j := fun is => other (congrArg some is.symm)
      rw [step, fail]
      split
      next => exact put ne _ rfl id
      next => exact put ne _ rfl id
      next => exact put ne _ rfl id
      next => exact ⟨rfl, id⟩
  | lateSet j =>
      have ne : i ≠ j := fun is => other (congrArg some is.symm)
      rw [step, lateSet]
      dsimp only
      split
      next => exact ⟨rfl, id⟩
      next => exact put ne _ (call_setNx w j _) fun is => (holder_setNx is).resolve_left ne
  | lateRelease j =>
      have ne : i ≠ j := fun is => other (congrArg some is.symm)
      rw [step, lateRelease]
      split
      next => exact ⟨rfl, id⟩
      next => exact put ne _ (call_compareDelete w j) holder_compareDelete

/-- A key that holds a token is deleted by a release of the call with that token. -/
theorem step_key (a : Act) {w : World} {j : Nat} (holds : w.holder = some j) :
    (w.step a).key = w.key ∨ a = .release j ∨ a = .lateRelease j := by
  have taken (i ttl : Nat) : (w.setNx i ttl).1.key = w.key := by
    rcases key_setNx w i ttl with same | ⟨free, -⟩
    · exact same
    · rw [holds] at free
      cases free
  have released (i : Nat) : (w.compareDelete i).1.key = w.key ∨ i = j := by
    rcases key_compareDelete w i with same | own
    · exact .inl same
    · rw [holds, Option.some.injEq] at own
      exact .inr own.symm
  cases a with
  | tick time => exact .inl rfl
  | withLock i ttl wait clock =>
      rw [step]
      split <;> exact .inl rfl
  | set i =>
      rw [step, set]
      split
      next => exact .inl (taken i _)
      next => exact .inl rfl
  | answer i clock =>
      rw [step, answer]
      split
      next => exact .inl rfl
      next => split <;> exact .inl rfl
      next => exact .inl rfl
      next => exact .inl rfl
  | wake i =>
      rw [step]
      split <;> exact .inl rfl
  | settle i resolves =>
      rw [step, settle]
      split
      next => split <;> exact .inl rfl
      next => exact .inl rfl
  | release i =>
      rcases released i with same | rfl
      · rw [step, release]
        split
        next => exact .inl same
        next => exact .inl same
        next => exact .inl rfl
      · exact .inr (.inl rfl)
  | answered i =>
      rw [step, answered]
      split
      next => split <;> exact .inl rfl
      next => exact .inl rfl
      next => exact .inl rfl
  | fail i =>
      rw [step, fail]
      split <;> exact .inl rfl
  | lateSet i =>
      rw [step, lateSet]
      dsimp only
      split
      next => exact .inl rfl
      next => exact .inl (taken i _)
  | lateRelease i =>
      rcases released i with same | rfl
      · rw [step, lateRelease]
        split
        next => exact .inl rfl
        next => exact .inl same
      · exact .inr (.inr rfl)

/-! Where a call stands, and what it has done. -/

/-- What a call's phase says of its marks. -/
def Shape (c : Call) : Prop :=
  match c.phase with
  | .absent | .taking _ none | .taking _ (some .null) | .taking _ (some .refused) | .sleeping _ =>
      c.taken = false ∧ c.freed = false ∧ c.lateSets = 0 ∧ c.lateReleases = 0
  | .taking _ (some .ok) | .working | .releasing none =>
      c.taken = true ∧ c.freed = false ∧ c.lateSets = 0 ∧ c.lateReleases = 0
  | .releasing (some _) | .resolved =>
      c.taken = true ∧ c.freed = true ∧ c.lateSets = 0 ∧ c.lateReleases = 0
  | .givingBack _ _ | .rejected _ => True

/-- A call with a command that may still take effect has given up. -/
theorem gaveUp {c : Call} (shape : Shape c) (late : c.lateSets ≠ 0 ∨ c.lateReleases ≠ 0) :
    (∃ error reply, c.phase = .givingBack error reply) ∨ ∃ error, c.phase = .rejected error := by
  rw [Shape] at shape
  split at shape
  case h_11 error reply phase => exact .inl ⟨error, reply, phase⟩
  case h_12 error phase => exact .inr ⟨error, phase⟩
  all_goals
    rcases late with sets | releases
    · exact absurd shape.2.2.1 sets
    · exact absurd shape.2.2.2 releases

theorem shape_step (a : Act) {w : World} (shape : ∀ i, Shape (w.call i)) (i : Nat) :
    Shape ((w.step a).call i) := by
  by_cases own : a.caller = some i
  next =>
    have here := shape i
    cases a with
    | tick time => cases own
    | withLock j ttl wait clock =>
        cases own
        rw [step]
        split
        next =>
          rw [call_put]
          exact ⟨rfl, rfl, rfl, rfl⟩
        next => exact here
    | set j =>
        cases own
        rw [step, set]
        split
        next deadline phase =>
          rw [call_put]
          rw [Shape, phase] at here
          cases replied : (w.setNx i (w.call i).ttl).2 with
          | ok => exact ⟨rfl, here.2⟩
          | null | refused => exact ⟨rfl, here.2⟩
        next => exact here
    | answer j clock =>
        cases own
        rw [step, answer]
        split
        next _ phase =>
          rw [call_put]
          rw [Shape, phase] at here
          exact here
        next _ phase =>
          rw [Shape, phase] at here
          split
          next => rw [call_put]; exact here
          next => rw [call_put]; trivial
        next => rw [call_put]; trivial
        next => exact here
    | wake j =>
        cases own
        rw [step]
        split
        next _ phase =>
          rw [call_put]
          rw [Shape, phase] at here
          exact here
        next => exact here
    | settle j resolves =>
        cases own
        rw [step, settle]
        split
        next phase =>
          rw [Shape, phase] at here
          split
          next => rw [call_put]; exact here
          next => rw [call_put]; trivial
        next => exact here
    | release j =>
        cases own
        rw [step, release]
        split
        next phase =>
          rw [call_put]
          rw [Shape, phase] at here
          exact ⟨here.1, rfl, here.2.2⟩
        next => rw [call_put]; trivial
        next => exact here
    | answered j =>
        cases own
        rw [step, answered]
        split
        next _ phase =>
          rw [Shape, phase] at here
          split
          next => rw [call_put]; trivial
          next => rw [call_put]; exact here
        next => rw [call_put]; trivial
        next => exact here
    | fail j =>
        cases own
        rw [step, fail]
        split
        next => rw [call_put]; trivial
        next => rw [call_put]; trivial
        next => rw [call_put]; trivial
        next => exact here
    | lateSet j =>
        cases own
        rw [step, lateSet]
        split
        next => exact here
        next late =>
          rw [call_put]
          rcases gaveUp here (.inl late) with ⟨_, _, phase⟩ | ⟨_, phase⟩ <;> rw [Shape, phase] <;>
            trivial
    | lateRelease j =>
        cases own
        rw [step, lateRelease]
        split
        next => exact here
        next late =>
          rw [call_put]
          rcases gaveUp here (.inr late) with ⟨_, _, phase⟩ | ⟨_, phase⟩ <;> rw [Shape, phase] <;>
            trivial
  next =>
    rw [(step_frame own).1]
    exact shape i

theorem shape_run (acts : List Act) (i : Nat) : Shape ((run acts).call i) := by
  induction acts using List.reverseRecOn generalizing i with
  | nil => exact ⟨rfl, rfl, rfl, rfl⟩
  | append_singleton acts a ih =>
      rw [run, runFrom, List.foldl_append]
      exact shape_step a ih i

/-! A call that lost its key. -/

/-- The call cannot resolve any more: its key is gone before its release, or it is told so. -/
def Lost (w : World) (i : Nat) : Prop :=
  match (w.call i).phase with
  | .taking _ (some .ok) | .working | .releasing none => w.holder ≠ some i
  | .releasing (some reply) => reply = 0
  | .givingBack _ _ | .rejected _ => True
  | .absent | .taking _ _ | .sleeping _ | .resolved => False

theorem lost_step (a : Act) {w : World} {i : Nat} (shape : Shape (w.call i)) (lost : Lost w i) :
    Lost (w.step a) i := by
  by_cases own : a.caller = some i
  next =>
    cases a with
    | tick time => cases own
    | withLock j ttl wait clock =>
        cases own
        rw [step]
        split
        next phase => rw [Lost, phase] at lost; exact lost.elim
        next => exact lost
    | set j =>
        cases own
        rw [step, set]
        split
        next deadline phase => rw [Lost, phase] at lost; exact lost.elim
        next => exact lost
    | answer j clock =>
        cases own
        rw [step, answer]
        split
        next _ phase =>
          rw [Lost, phase] at lost
          rw [Lost, call_put]
          exact lost
        next _ phase => rw [Lost, phase] at lost; exact lost.elim
        next _ phase => rw [Lost, phase] at lost; exact lost.elim
        next => exact lost
    | wake j =>
        cases own
        rw [step]
        split
        next _ phase => rw [Lost, phase] at lost; exact lost.elim
        next => exact lost
    | settle j resolves =>
        cases own
        rw [step, settle]
        split
        next phase =>
          rw [Lost, phase] at lost
          split
          next => rw [Lost, call_put]; exact lost
          next => rw [Lost, call_put]; trivial
        next => exact lost
    | release j =>
        cases own
        rw [step, release]
        split
        next phase =>
          rw [Lost, phase] at lost
          rw [Lost, call_put]
          exact compareDelete_lost lost
        next => rw [Lost, call_put]; trivial
        next => exact lost
    | answered j =>
        cases own
        rw [step, answered]
        split
        next reply phase =>
          rw [Lost, phase] at lost
          rw [if_pos lost, Lost, call_put]
          trivial
        next => rw [Lost, call_put]; trivial
        next => exact lost
    | fail j =>
        cases own
        rw [step, fail]
        split
        next => rw [Lost, call_put]; trivial
        next => rw [Lost, call_put]; trivial
        next => rw [Lost, call_put]; trivial
        next => exact lost
    | lateSet j =>
        cases own
        rw [step, lateSet]
        split
        next => exact lost
        next late =>
          rw [Lost, call_put]
          rcases gaveUp shape (.inl late) with ⟨_, _, phase⟩ | ⟨_, phase⟩ <;> rw [phase] <;> trivial
    | lateRelease j =>
        cases own
        rw [step, lateRelease]
        split
        next => exact lost
        next late =>
          rw [Lost, call_put]
          rcases gaveUp shape (.inr late) with ⟨_, _, phase⟩ | ⟨_, phase⟩ <;> rw [phase] <;> trivial
  next =>
    obtain ⟨same, holds⟩ := step_frame own
    rw [Lost, same]
    rw [Lost] at lost
    split at lost
    next => exact fun is => lost (holds is)
    next => exact fun is => lost (holds is)
    next => exact fun is => lost (holds is)
    next => exact lost
    next => trivial
    next => trivial
    next => exact lost.elim
    next => exact lost.elim
    next => exact lost.elim
    next => exact lost.elim

theorem lost_runFrom (acts : List Act) {w : World} {i : Nat} (shape : ∀ i, Shape (w.call i))
    (lost : Lost w i) : Lost (runFrom w acts) i := by
  induction acts generalizing w with
  | nil => exact lost
  | cons a acts ih => exact ih (shape_step a shape) (lost_step a (shape i) lost)

/-- Inside without the key, a call is lost. -/
theorem lost_of_inside {w : World} {i : Nat} (shape : Shape (w.call i)) (inside : w.Inside i)
    (gone : w.holder ≠ some i) : Lost w i := by
  obtain ⟨taken, kept⟩ := inside
  rw [Shape, taken, kept] at shape
  split at shape
  case h_6 phase | h_7 phase | h_8 phase => rw [Lost, phase]; exact gone
  case h_11 phase | h_12 phase => rw [Lost, phase]; trivial
  all_goals simp at shape

/-- A call that resolves holds the key as long as it is inside. -/
theorem holder_of_resolved {acts later : List Act} {i : Nat} (inside : (run acts).Inside i)
    (resolves : ((runFrom (run acts) later).call i).phase = .resolved) :
    (run acts).holder = some i := by
  by_contra gone
  have lost := lost_runFrom later (shape_run acts)
    (lost_of_inside (shape_run acts i) inside gone)
  rw [Lost, resolves] at lost
  exact lost

/-- A call that resolves took the key and gave it back. A key that holds a token is deleted by
a release of its own call only; a call that resolves holds the key from its `SET` to its
release; and of two calls inside at once at least one does not resolve. -/
theorem run_lockExcludes (acts : List Act) :
    (∀ i, ((run acts).call i).phase = .resolved →
      ((run acts).call i).taken = true ∧ ((run acts).call i).freed = true) ∧
    (∀ a i, (run acts).holder = some i →
      ((run acts).step a).key = (run acts).key ∨ a = .release i ∨ a = .lateRelease i) ∧
    (∀ later i, (run acts).Inside i → ((runFrom (run acts) later).call i).phase = .resolved →
      (run acts).holder = some i) ∧
    ∀ later i j, i ≠ j → (run acts).Inside i → (run acts).Inside j →
      ((runFrom (run acts) later).call i).phase = .resolved →
        ((runFrom (run acts) later).call j).phase ≠ .resolved := by
  refine ⟨fun i phase => ?_, fun a i => step_key a, fun later i => holder_of_resolved, ?_⟩
  · have shape := shape_run acts i
    rw [Shape, phase] at shape
    exact ⟨shape.1, shape.2.1⟩
  · intro later i j other inside inside' resolves resolves'
    have mine := holder_of_resolved inside resolves
    have theirs := holder_of_resolved inside' resolves'
    rw [mine, Option.some.injEq] at theirs
    exact other theirs

/-- The first work overruns its `ttl`, and the second call takes the key. -/
def overrun : List Act :=
  [.withLock 0 50 0 0, .set 0, .answer 0 0, .tick 60, .withLock 1 50 0 60, .set 1, .answer 1 60]

theorem run_lockExcludes_overrun :
    ((runFrom (run overrun) [.settle 0 true, .release 0, .settle 1 true, .release 1, .answered 1,
      .answered 0]).call 0).phase ≠ .resolved :=
  (run_lockExcludes overrun).2.2.2 _ 1 0 (by decide) ⟨rfl, rfl⟩ ⟨rfl, rfl⟩ rfl

end NxgtData.Redis.WithLock.World
