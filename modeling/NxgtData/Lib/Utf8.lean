import Mathlib.Data.List.Basic

/-!
Texts as the bytes of their UTF-8, and bytes as texts: `decode` takes any bytes, and where they
are not UTF-8 it puts U+FFFD for each longest piece that begins a character.
-/
namespace NxgtData

abbrev Bytes := List UInt8

namespace Utf8

/-- `new TextEncoder().encode(s)` -/
def encode (s : String) : Bytes := s.toList.flatMap String.utf8EncodeChar

/-- Between characters, or in one: how many bytes it takes after the next, its code so far, and
the bounds of the next byte. -/
inductive State where
  | start
  | tail (owed code low high : Nat)

def replacement : Char := Char.ofNat 0xFFFD

/-- What a byte gives that begins a character, or that cannot. -/
def first (b : Nat) : List Char × State :=
  if b ≤ 0x7F then ([Char.ofNat b], .start)
  else if 0xC2 ≤ b ∧ b ≤ 0xDF then ([], .tail 0 (b - 0xC0) 0x80 0xBF)
  else if 0xE0 ≤ b ∧ b ≤ 0xEF then
    ([], .tail 1 (b - 0xE0) (if b = 0xE0 then 0xA0 else 0x80) (if b = 0xED then 0x9F else 0xBF))
  else if 0xF0 ≤ b ∧ b ≤ 0xF4 then
    ([], .tail 2 (b - 0xF0) (if b = 0xF0 then 0x90 else 0x80) (if b = 0xF4 then 0x8F else 0xBF))
  else ([replacement], .start)

def step : State → Nat → List Char × State
  | .start, b => first b
  | .tail owed code low high, b =>
      if low ≤ b ∧ b ≤ high then
        match owed with
        | 0 => ([Char.ofNat (code * 64 + (b - 0x80))], .start)
        | owed + 1 => ([], .tail owed (code * 64 + (b - 0x80)) 0x80 0xBF)
      else (replacement :: (first b).1, (first b).2)

def decodeFrom : State → Bytes → List Char
  | .start, [] => []
  | .tail _ _ _ _, [] => [replacement]
  | state, b :: rest => (step state b.toNat).1 ++ decodeFrom (step state b.toNat).2 rest

/-- A byte order mark at the front is dropped. -/
def unmarked : List Char → List Char
  | c :: cs => if c.toNat = 0xFEFF then cs else c :: cs
  | [] => []

/-- `new TextDecoder().decode(bytes)` -/
def decode (bytes : Bytes) : String := String.ofList (unmarked (decodeFrom .start bytes))

theorem decodeFrom_cons (state : State) (b : UInt8) (rest : Bytes) : decodeFrom state (b :: rest) =
    (step state b.toNat).1 ++ decodeFrom (step state b.toNat).2 rest := by
  cases state <;> rfl

theorem toNat_byte {n : Nat} (small : n < 256) : (UInt8.ofNat n).toNat = n :=
  (UInt8.toNat_ofNat' ..).trans (Nat.mod_eq_of_lt small)

/-- A byte that a character owes, with more to come. -/
theorem step_tail {owed code low high b : Nat} (le : low ≤ b) (ge : b ≤ high) :
    step (.tail (owed + 1) code low high) b =
      ([], .tail owed (code * 64 + (b - 0x80)) 0x80 0xBF) := by
  rw [step, if_pos ⟨le, ge⟩]

theorem step_last {code low high b : Nat} (le : low ≤ b) (ge : b ≤ high) :
    step (.tail 0 code low high) b = ([Char.ofNat (code * 64 + (b - 0x80))], .start) := by
  rw [step, if_pos ⟨le, ge⟩]

theorem decodeFrom_char (c : Char) (rest : Bytes) :
    decodeFrom .start (String.utf8EncodeChar c ++ rest) = c :: decodeFrom .start rest := by
  have valid : c.val.toNat < 0xD800 ∨ 0xDFFF < c.val.toNat ∧ c.val.toNat < 0x110000 := c.valid
  have own : Char.ofNat c.val.toNat = c := Char.ofNat_toNat c
  unfold String.utf8EncodeChar
  dsimp only
  generalize c.val.toNat = v at valid own ⊢
  split
  next =>
    rw [List.cons_append, decodeFrom_cons, toNat_byte (by omega), step, first,
      if_pos (by omega), own]
    rfl
  next =>
    split
    next =>
      rw [List.cons_append, decodeFrom_cons, toNat_byte (by omega), step, first,
        if_neg (by omega), if_pos (by omega), List.cons_append, decodeFrom_cons,
        toNat_byte (by omega), step_last (by omega) (by omega)]
      rw [show (v / 64 % 0x20 + 0xc0 - 0xC0) * 64 + (v % 0x40 + 0x80 - 0x80) = v by omega, own]
      rfl
    next =>
      split
      next =>
        rw [List.cons_append, decodeFrom_cons, toNat_byte (by omega), step, first,
          if_neg (by omega), if_neg (by omega), if_pos (by omega), List.cons_append,
          decodeFrom_cons, toNat_byte (by omega), step_tail (by split <;> omega)
          (by split <;> omega), List.cons_append, decodeFrom_cons, toNat_byte (by omega),
          step_last (by omega) (by omega)]
        rw [show ((v / 4096 % 0x10 + 0xe0 - 0xE0) * 64 + (v / 64 % 0x40 + 0x80 - 0x80)) * 64 +
          (v % 0x40 + 0x80 - 0x80) = v by omega, own]
        rfl
      next =>
        rw [List.cons_append, decodeFrom_cons, toNat_byte (by omega), step, first,
          if_neg (by omega), if_neg (by omega), if_neg (by omega), if_pos (by omega),
          List.cons_append, decodeFrom_cons, toNat_byte (by omega), step_tail
          (by split <;> omega) (by split <;> omega), List.cons_append, decodeFrom_cons,
          toNat_byte (by omega), step_tail (by omega) (by omega), List.cons_append,
          decodeFrom_cons, toNat_byte (by omega), step_last (by omega) (by omega)]
        rw [show (((v / 262144 % 0x08 + 0xf0 - 0xF0) * 64 + (v / 4096 % 0x40 + 0x80 - 0x80)) * 64 +
          (v / 64 % 0x40 + 0x80 - 0x80)) * 64 + (v % 0x40 + 0x80 - 0x80) = v by omega, own]
        rfl

theorem decodeFrom_encode (s : String) : decodeFrom .start (encode s) = s.toList := by
  unfold encode
  induction s.toList with
  | nil => rfl
  | cons c cs ih => rw [List.flatMap_cons, decodeFrom_char, ih]

/-- A text is read back, unless it begins with a byte order mark. -/
theorem decode_encode {s : String} (unmarked : s.toList.head? ≠ some (Char.ofNat 0xFEFF)) :
    decode (encode s) = s := by
  rw [decode, decodeFrom_encode]
  have same : Utf8.unmarked s.toList = s.toList := by
    generalize s.toList = cs at unmarked ⊢
    cases cs with
    | nil => rfl
    | cons c cs =>
        rw [Utf8.unmarked, if_neg]
        intro mark
        refine unmarked (congrArg some ?_)
        rw [← mark, Char.ofNat_toNat]
  rw [same, String.ofList_toList]

/-- A character takes a byte at least. -/
theorem length_le_encode (s : String) : s.toList.length ≤ (encode s).length := by
  unfold encode
  induction s.toList with
  | nil => exact Nat.le_refl _
  | cons c cs ih =>
      have some := List.length_pos_iff.mpr (String.utf8EncodeChar_ne_nil (c := c))
      rw [List.flatMap_cons, List.length_append, List.length_cons]
      omega

end Utf8
end NxgtData
