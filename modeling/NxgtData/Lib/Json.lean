import Mathlib.Data.Rat.Defs
import NxgtData.Lib.Decimal
import NxgtData.Lib.Utf16

/-!
JSON texts. `stringify` writes a value, on one line or with tabs, and `parse` reads
any text of the grammar; what is written is read back.
-/
namespace NxgtData.JsonText
open Utf16 (ofChar ofString isHigh isLow pair)

/-- A number as its text gives it: a sign, digits, and a power of ten. -/
structure Number where
  negative : Bool
  digits : Nat
  power : Int
deriving DecidableEq

/-- The number itself, which the runtime rounds to a double. -/
def Number.value (x : Number) : ℚ := (if x.negative then -1 else 1) * x.digits * 10 ^ x.power

inductive Value where
  | null
  | bool (b : Bool)
  /-- Digits alone. -/
  | num (n : Nat)
  /-- With a sign, a point or an exponent. -/
  | float (x : Number)
  | str (s : Utf16)
  | arr (items : List Value)
  /-- A name is kept as a text: a lone surrogate in it is U+FFFD, in none that is looked up. -/
  | obj (fields : List (String × Value))

namespace Value

/-- A string that is a text. -/
def text (s : String) : Value := .str (ofString s)

/-- An object's field: of two of a name, the last counts. -/
def field (v : Value) (name : String) : Option Value :=
  match v with
  | .obj fields => (fields.reverse.find? fun f => f.1 = name).map Prod.snd
  | _ => none

end Value

def hexDigit (n : Nat) : Char := "0123456789abcdef".toList.getD n '0'

def hexValue (c : Char) : Option Nat :=
  if c.isDigit then some (c.toNat - 48)
  else if 'a' ≤ c ∧ c ≤ 'f' then some (c.toNat - 87)
  else if 'A' ≤ c ∧ c ≤ 'F' then some (c.toNat - 55)
  else none

/-- A character in a string: a control character is written as its code. -/
def escape (c : Char) : List Char :=
  if c = '"' then ['\\', '"']
  else if c = '\\' then ['\\', '\\']
  else if c = '\x08' then ['\\', 'b']
  else if c = '\x0c' then ['\\', 'f']
  else if c = '\n' then ['\\', 'n']
  else if c = '\r' then ['\\', 'r']
  else if c = '\t' then ['\\', 't']
  else if c.toNat < 32 then ['\\', 'u', '0', '0', hexDigit (c.toNat / 16), hexDigit (c.toNat % 16)]
  else [c]

def quote (s : String) : List Char := '"' :: s.toList.flatMap escape ++ ['"']

/-- A unit that is no half of a pair; a lone half is written as its code. -/
def escapeUnit (u : UInt16) : List Char :=
  if isHigh u || isLow u then
    let n := u.toNat
    ['\\', 'u', hexDigit (n / 4096), hexDigit (n / 256 % 16), hexDigit (n / 16 % 16),
      hexDigit (n % 16)]
  else escape (Char.ofNat u.toNat)

def escapeUnits : Utf16 → List Char
  | [] => []
  | [u] => escapeUnit u
  | u :: v :: rest =>
      if isHigh u && isLow v then pair u v :: escapeUnits rest
      else escapeUnit u ++ escapeUnits (v :: rest)

/-- Nothing that is written has a sign, a point or an exponent; this is read back. -/
def writeNumber (x : Number) : List Char :=
  let sign (negative : Bool) := if negative then ['-'] else []
  sign x.negative ++ (Nat.toDigits 10 x.digits ++
    'e' :: (sign (x.power < 0) ++ Nat.toDigits 10 x.power.natAbs))

/-- With tabs, each item is on a line of its own. -/
def newline (tabs : Bool) (depth : Nat) : List Char :=
  if tabs then '\n' :: List.replicate depth '\t' else []

def colon (tabs : Bool) : List Char := if tabs then [':', ' '] else [':']

mutual
def write (tabs : Bool) (depth : Nat) : Value → List Char
  | .null => ['n', 'u', 'l', 'l']
  | .bool true => ['t', 'r', 'u', 'e']
  | .bool false => ['f', 'a', 'l', 's', 'e']
  | .num n => Nat.toDigits 10 n
  | .float x => writeNumber x
  | .str s => '"' :: escapeUnits s ++ ['"']
  | .arr [] => ['[', ']']
  | .arr (v :: vs) =>
      '[' :: (newline tabs (depth + 1) ++ (write tabs (depth + 1) v ++ writeItems tabs depth vs))
  | .obj [] => ['{', '}']
  | .obj ((k, v) :: fs) =>
      '{' :: (newline tabs (depth + 1) ++ (quote k ++ (colon tabs ++
        (write tabs (depth + 1) v ++ writeFields tabs depth fs))))

/-- The items that follow another, and the bracket. -/
def writeItems (tabs : Bool) (depth : Nat) : List Value → List Char
  | [] => newline tabs depth ++ [']']
  | v :: vs =>
      ',' :: (newline tabs (depth + 1) ++ (write tabs (depth + 1) v ++ writeItems tabs depth vs))

def writeFields (tabs : Bool) (depth : Nat) : List (String × Value) → List Char
  | [] => newline tabs depth ++ ['}']
  | (k, v) :: fs =>
      ',' :: (newline tabs (depth + 1) ++ (quote k ++ (colon tabs ++
        (write tabs (depth + 1) v ++ writeFields tabs depth fs))))
end

/-- `JSON.stringify(v)`, or with `tabs` `JSON.stringify(v, null, '\t')`. -/
def stringify (tabs : Bool) (v : Value) : String := String.ofList (write tabs 0 v)

def isSpace (c : Char) : Bool := c = ' ' || c = '\t' || c = '\n' || c = '\r'

def skip (cs : List Char) : List Char := cs.dropWhile isSpace

/-- The four digits of an escape. -/
def code (a b c d : Char) : Option Nat := do
  some ((← hexValue a) * 4096 + (← hexValue b) * 256 + (← hexValue c) * 16 + (← hexValue d))

def unescape (c : Char) : Option Char :=
  if c = '"' ∨ c = '\\' ∨ c = '/' then some c
  else if c = 'b' then some '\x08'
  else if c = 'f' then some '\x0c'
  else if c = 'n' then some '\n'
  else if c = 'r' then some '\r'
  else if c = 't' then some '\t'
  else none

/-- The rest of a string, after its opening quote. -/
def string : List Char → Option (Utf16 × List Char)
  | '"' :: r => some ([], r)
  | '\\' :: 'u' :: a :: b :: c :: d :: r =>
      (code a b c d).bind fun n => (string r).map fun p => (UInt16.ofNat n :: p.1, p.2)
  | '\\' :: c :: r => (unescape c).bind fun c => (string r).map fun p => (ofChar c ++ p.1, p.2)
  | c :: r =>
      if c.toNat < 32 ∨ c = '\\' then none
      else (string r).map fun p => (ofChar c ++ p.1, p.2)
  | [] => none

def digits (cs : List Char) : List Char × List Char :=
  (cs.takeWhile Char.isDigit, cs.dropWhile Char.isDigit)

/-- Its digits, of which there are some if there is a point. -/
def fraction : List Char → Option (List Char × List Char)
  | '.' :: r => if (digits r).1 = [] then none else some (digits r)
  | r => some ([], r)

/-- A sign that may be there; with `true` it is a minus. -/
def sign : List Char → Bool × List Char
  | '-' :: r => (true, r)
  | '+' :: r => (false, r)
  | r => (false, r)

def exponent : List Char → Option (Option Int × List Char)
  | e :: r =>
      if e = 'e' ∨ e = 'E' then
        let (negative, r) := sign r
        let (ds, r) := digits r
        let n : Int := Nat.ofDigitChars 10 ds 0
        if ds = [] then none else some (some (if negative then -n else n), r)
      else some (none, e :: r)
  | [] => some (none, [])

def number (cs : List Char) : Option (Value × List Char) :=
  let negative : Bool := cs.head? = some '-'
  let (whole, r) := digits (if negative then cs.tail else cs)
  if whole = [] ∨ (whole.head? = some '0' ∧ whole.length ≠ 1) then none
  else do
    let (part, r) ← fraction r
    let (power, r) ← exponent r
    let read :=
      if negative ∨ part ≠ [] ∨ power.isSome then
        .float ⟨negative, Nat.ofDigitChars 10 (whole ++ part) 0, power.getD 0 - part.length⟩
      else .num (Nat.ofDigitChars 10 whole 0)
    some (read, r)

mutual
def value : Nat → List Char → Option (Value × List Char)
  | 0, _ => none
  | fuel + 1, cs =>
      match skip cs with
      | 'n' :: 'u' :: 'l' :: 'l' :: r => some (.null, r)
      | 't' :: 'r' :: 'u' :: 'e' :: r => some (.bool true, r)
      | 'f' :: 'a' :: 'l' :: 's' :: 'e' :: r => some (.bool false, r)
      | '"' :: r => (string r).map fun p => (.str p.1, p.2)
      | '[' :: r =>
          if (skip r).head? = some ']' then some (.arr [], (skip r).tail)
          else (value fuel r).bind fun p => (items fuel p.2).map fun q => (.arr (p.1 :: q.1), q.2)
      | '\x7b' :: r =>
          if (skip r).head? = some '\x7d' then some (.obj [], (skip r).tail)
          else (member fuel r).bind fun p => (fields fuel p.2).map fun q => (.obj (p.1 :: q.1), q.2)
      | r => number r

def items : Nat → List Char → Option (List Value × List Char)
  | 0, _ => none
  | fuel + 1, cs =>
      match skip cs with
      | ']' :: r => some ([], r)
      | ',' :: r => (value fuel r).bind fun p => (items fuel p.2).map fun q => (p.1 :: q.1, q.2)
      | _ => none

def member : Nat → List Char → Option ((String × Value) × List Char)
  | 0, _ => none
  | fuel + 1, cs =>
      match skip cs with
      | '"' :: r =>
          (string r).bind fun k =>
            match skip k.2 with
            | ':' :: r => (value fuel r).map fun p => ((k.1.text, p.1), p.2)
            | _ => none
      | _ => none

def fields : Nat → List Char → Option (List (String × Value) × List Char)
  | 0, _ => none
  | fuel + 1, cs =>
      match skip cs with
      | '\x7d' :: r => some ([], r)
      | ',' :: r => (member fuel r).bind fun p => (fields fuel p.2).map fun q => (p.1 :: q.1, q.2)
      | _ => none
end

/-- `JSON.parse`. -/
def parse (text : String) : Option Value :=
  match value (3 * text.toList.length + 1) text.toList with
  | some (v, r) => if skip r = [] then some v else none
  | none => none

end NxgtData.JsonText
