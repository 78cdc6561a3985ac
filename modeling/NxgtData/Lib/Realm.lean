import NxgtData.Lib.JsValue

/-!
JavaScript objects by what reading them does. A method of an object may run code of the
caller's: it may throw, and it may leave another world behind, in which the next read of the
same property gives another value. Nothing is assumed of it.
-/
namespace NxgtData

namespace Realm

inductive Key where
  | string (s : Utf16)
  | symbol (n : Nat)
  deriving DecidableEq

inductive Value (Obj : Type) where
  | undefined
  | null
  | boolean (b : Bool)
  | number (n : Num)
  | string (s : Utf16)
  | symbol (n : Nat)
  | bigint (n : Int)
  | object (o : Obj)

/-- A property descriptor, of a value or of a getter. -/
inductive Descriptor (Obj : Type) where
  | data (value : Value Obj) (enumerable : Bool)
  | accessor (enumerable : Bool)

/-- What `Object.getPrototypeOf` answers: `Object.prototype`, `null` or another object. -/
inductive Prototype where
  | plain
  | null
  | other
  deriving DecidableEq

/-- What a run that reads comes to. -/
abbrev Run (World E : Type) := StateT World (Except E)

end Realm

open Realm in
structure Realm (Obj World Thrown : Type) where
  callable : Obj → Bool
  isArray : Obj → Run World Thrown Bool
  getPrototypeOf : Obj → Run World Thrown Prototype
  getOwnPropertyDescriptors : Obj → Run World Thrown (List (Key × Descriptor Obj))
  hasOwn : Obj → Key → Run World Thrown Bool
  /-- The length that `Array.from` takes of `{ length }`. -/
  length : Obj → Run World Thrown Nat
  /-- `array[i]`. -/
  get : Obj → Nat → Run World Thrown (Value Obj)
  /-- The time of a `Date`, its own slot: `some none` is an invalid date's. -/
  timeOf : Obj → World → Option (Option Int)

namespace Realm
namespace Run
variable {World E E' α β : Type}

/-- A run whose throws are one kind of another's. -/
def trap (kind : E → E') (run : Run World E α) : Run World E' α := fun w =>
  match run w with
  | .error e => .error (kind e)
  | .ok out => .ok out

theorem trap_eq_ok {kind : E → E'} {run : Run World E α} {out : α × World} {w : World} :
    trap kind run w = .ok out ↔ run w = .ok out := by
  unfold trap
  cases run w with
  | error e => exact iff_of_false nofun nofun
  | ok out =>
      constructor
      · intro is
        cases is
        rfl
      · intro is
        cases is
        rfl

theorem pure_eq_ok {a b : α} {w w' : World} :
    (pure a : Run World E α) w = .ok (b, w') ↔ a = b ∧ w = w' := by
  change Except.ok (a, w) = .ok (b, w') ↔ _
  rw [Except.ok.injEq, Prod.mk.injEq]

/-- A run that goes on after a read succeeds when the read does, and what follows, from the
world that the read leaves. -/
theorem bind_eq_ok {run : Run World E α} {next : α → Run World E β} {b : β} {w w' : World} :
    (run >>= next) w = .ok (b, w') ↔ ∃ a v, run w = .ok (a, v) ∧ next a v = .ok (b, w') := by
  change (run w >>= fun out => next out.1 out.2) = _ ↔ _
  cases run w with
  | error e =>
      refine iff_of_false nofun ?_
      rintro ⟨a, v, is, -⟩
      exact absurd is nofun
  | ok out =>
      obtain ⟨a, v⟩ := out
      refine ⟨fun is => ⟨a, v, rfl, is⟩, ?_⟩
      rintro ⟨b, u, is, rest⟩
      cases is
      exact rest

end Run

end Realm

end NxgtData
