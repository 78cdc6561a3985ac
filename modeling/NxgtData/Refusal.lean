import NxgtData.Lib.JsValue

/-!
The errors a malformed option is refused with. A message is kept in pieces, so
that a value it quotes stays the value; JavaScript prints it.
-/
namespace NxgtData

/-- A piece of a message: its own text, a string, a value as a template prints
it, or a value as `JSON.stringify` does. -/
inductive Piece where
  | text (s : String)
  | units (s : Utf16)
  | value (v : Js)
  | json (v : Js)

abbrev Message := List Piece

/-- `"<s>"`. -/
def quoted (s : Utf16) : Message := [.text "\"", .units s, .text "\""]

/-- A number in a message. -/
def shown (n : Nat) : Piece := .value (.number (.ofNat n))

inductive Refusal where
  | typeError (message : Message)
  | queueError (code : String) (queue : Utf16) (message : Message)

/-- The refusal `<call>: "<name>" <what>`. -/
def refuseDefinition (call : String) (name : Utf16) (what : Message) : Refusal :=
  .typeError ([.text (call ++ ": ")] ++ quoted name ++ what)

/-- The refusal `<call> on "<queue>": <what>`. -/
def refuseCall (call : String) (queue : Utf16) (what : String) : Refusal :=
  .typeError ([.text (call ++ " on ")] ++ quoted queue ++ [.text (": " ++ what)])

/-- A computation that goes on after a step succeeds when the step does, and what follows. -/
theorem bind_eq_ok_iff {ε α β : Type} {x : Except ε α} {g : α → Except ε β} {b : β} :
    (x >>= g) = .ok b ↔ ∃ a, x = .ok a ∧ g a = .ok b := by
  cases x with
  | error e =>
      refine iff_of_false nofun ?_
      rintro ⟨a, is, -⟩
      exact absurd is nofun
  | ok a =>
      refine ⟨fun is => ⟨a, rfl, is⟩, ?_⟩
      rintro ⟨b, is, rest⟩
      cases is
      exact rest

/-- What follows a check that passed passed too. -/
theorem bind_ok {α β : Type} {x : Except Refusal α} {f : α → Except Refusal β} {b : β}
    (h : x >>= f = .ok b) : ∃ a, x = .ok a ∧ f a = .ok b := bind_eq_ok_iff.mp h

end NxgtData
