import Mathlib.Data.Option.Basic
import Mathlib.Logic.Basic

/-!
Checks made one after another, the first that fails giving the error: what is known once all of
them passed.
-/
namespace NxgtData.Checked

variable {ε α β : Type}

def require (ok : Bool) (error : ε) : Except ε Unit := if ok then .ok () else .error error

theorem bind_ok {x : Except ε α} {f : α → Except ε β} {b : β} :
    (x >>= f) = .ok b ↔ ∃ a, x = .ok a ∧ f a = .ok b := by
  cases x with
  | error e =>
      refine iff_of_false (fun is => by cases is) ?_
      rintro ⟨a, is, -⟩
      cases is
  | ok a =>
      refine ⟨fun is => ⟨a, rfl, is⟩, ?_⟩
      rintro ⟨a, is, rest⟩
      cases is
      exact rest

theorem map_ok {x : Except ε α} {f : α → β} {b : β} :
    x.map f = .ok b ↔ ∃ a, x = .ok a ∧ f a = b := by
  cases x <;> simp [Except.map]

theorem require_ok {ok : Bool} {error : ε} {u : Unit} : require ok error = .ok u ↔ ok = true := by
  cases ok <;> simp [require]

theorem bind_require {ok : Bool} {error : ε} {f : Unit → Except ε β} {b : β} :
    (require ok error >>= f) = .ok b ↔ ok = true ∧ f () = .ok b := by
  cases ok with
  | true => exact ⟨fun is => ⟨rfl, is⟩, And.right⟩
  | false => exact iff_of_false (fun is => by cases is) fun is => by cases is.1

theorem bind_error {x : Except ε α} {f : α → Except ε β} {e : ε} (is : (x >>= f) = .error e) :
    x = .error e ∨ ∃ a, x = .ok a ∧ f a = .error e := by
  cases x with
  | error e' =>
      cases is
      exact .inl rfl
  | ok a => exact .inr ⟨a, rfl, is⟩

theorem require_error {ok : Bool} {error e : ε} (is : require ok error = .error e) :
    error = e := by
  unfold require at is
  split at is
  next => cases is
  next => exact Except.error.inj is

end NxgtData.Checked
