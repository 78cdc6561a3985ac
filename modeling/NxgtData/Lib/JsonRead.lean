import NxgtData.Lib.Json

/-!
What `stringify` writes, `parse` reads back. Each part of a text is read off its
front whatever comes after it, as long as that does not go on with a number; the
fuel a part needs is at most three times its length.
-/
namespace NxgtData.JsonText
open Utf16 (ofChar ofString isHigh isLow pair)

/-! Numbers. -/

/-- What follows a number does not go on with one. -/
def Stops (rest : List Char) : Prop :=
  ∀ c ∈ rest.head?, c.isDigit = false ∧ c ≠ '.' ∧ c ≠ 'e' ∧ c ≠ 'E'

theorem stops_nil : Stops [] := fun c mem => by cases mem

theorem stops_cons {c : Char} {rest : List Char}
    (plain : c.isDigit = false ∧ c ≠ '.' ∧ c ≠ 'e' ∧ c ≠ 'E') : Stops (c :: rest) := by
  intro d mem
  cases mem
  exact plain

theorem head_toDigits {n : Nat} (pos : 0 < n) : (Nat.toDigits 10 n).head? ≠ some '0' := by
  induction n using Nat.strong_induction_on with
  | h n ih =>
      rw [Nat.toDigits_eq_if (by decide)]
      split
      next small =>
        have all : ∀ d < 10, 0 < d → [d.digitChar].head? ≠ some '0' := by decide
        exact all n small pos
      next large =>
        rw [List.head?_append_of_ne_nil _ Nat.toDigits_ne_nil]
        exact ih (n / 10) (by omega) (by omega)

theorem digits_append {ds rest : List Char} (all : ∀ c ∈ ds, c.isDigit = true)
    (none : ∀ c ∈ rest.head?, c.isDigit = false) : digits (ds ++ rest) = (ds, rest) := by
  have stop : rest.takeWhile Char.isDigit = [] ∧ rest.dropWhile Char.isDigit = rest := by
    cases rest with
    | nil => exact ⟨rfl, rfl⟩
    | cons c rest => simp [none c rfl]
  rw [digits, List.takeWhile_append_of_pos all, List.dropWhile_append_of_pos all, stop.1, stop.2,
    List.append_nil]

/-- No fraction or exponent starts what follows a number. -/
theorem parts_stop {rest : List Char} (stops : Stops rest) :
    fraction rest = some ([], rest) ∧ exponent rest = some (none, rest) := by
  cases rest with
  | nil => exact ⟨rfl, rfl⟩
  | cons c rest =>
      obtain ⟨-, dot, small, large⟩ := stops c rfl
      refine ⟨?_, ?_⟩
      next => simp [fraction, dot]
      next => simp [exponent, small, large]

theorem isDigit_toDigits {n : Nat} {c : Char} (mem : c ∈ Nat.toDigits 10 n) : c.isDigit = true :=
  Nat.isDigit_of_mem_toDigits (by decide) (by decide) mem

theorem digits_toDigits (n : Nat) {rest : List Char}
    (none : ∀ c ∈ rest.head?, c.isDigit = false) :
    digits (Nat.toDigits 10 n ++ rest) = (Nat.toDigits 10 n, rest) :=
  digits_append (fun _ => isDigit_toDigits) none

theorem no_leading (n : Nat) : ¬ (Nat.toDigits 10 n = [] ∨
    (Nat.toDigits 10 n).head? = some '0' ∧ (Nat.toDigits 10 n).length ≠ 1) := by
  rintro (none | ⟨leading, long⟩)
  · exact Nat.toDigits_ne_nil none
  · cases n with
    | zero => exact long rfl
    | succ n => exact head_toDigits (Nat.succ_pos n) leading

/-- Digits start with no sign. -/
theorem head_digits (n : Nat) (rest : List Char) {c : Char} (other : c.isDigit = false) :
    (Nat.toDigits 10 n ++ rest).head? ≠ some c := by
  rw [List.head?_append_of_ne_nil _ Nat.toDigits_ne_nil]
  intro first
  rw [isDigit_toDigits (List.mem_of_mem_head? first)] at other
  cases other

theorem number_toDigits (n : Nat) {rest : List Char} (stops : Stops rest) :
    number (Nat.toDigits 10 n ++ rest) = some (.num n, rest) := by
  have head := head_digits n rest (c := '-') (by decide)
  have split := digits_toDigits n fun c mem => (stops c mem).1
  obtain ⟨plain, plain'⟩ := parts_stop stops
  unfold number
  simp only [head, decide_false, Bool.false_eq_true, if_false, split, no_leading, plain, plain',
    Option.bind_eq_bind, Option.bind_some, ne_eq, not_true_eq_false, Option.isSome_none, or_self,
    Nat.ofDigitChars_ten_toDigits]

theorem sign_digits (n : Nat) (rest : List Char) :
    sign (Nat.toDigits 10 n ++ rest) = (false, Nat.toDigits 10 n ++ rest) := by
  have minus := head_digits n rest (c := '-') (by decide)
  have plus := head_digits n rest (c := '+') (by decide)
  cases digits : Nat.toDigits 10 n ++ rest with
  | nil => rfl
  | cons c cs =>
      rw [digits] at minus plus
      unfold sign
      split
      next is => cases is; exact absurd rfl minus
      next is => cases is; exact absurd rfl plus
      next => rfl

/-- A power of ten is read back. -/
theorem exponent_write (power : Int) {rest : List Char} (stops : Stops rest) :
    exponent ('e' :: ((if power < 0 then ['-'] else []) ++ (Nat.toDigits 10 power.natAbs ++ rest))) =
      some (some power, rest) := by
  have split := digits_toDigits power.natAbs fun c mem => (stops c mem).1
  unfold exponent
  by_cases below : power < 0
  · have value : -|power| = power := by rw [abs_of_neg below, neg_neg]
    simp [below, sign, split, Nat.toDigits_ne_nil, Nat.ofDigitChars_ten_toDigits, value]
  · have value : (power.natAbs : Int) = power := by omega
    simp [below, sign_digits, split, Nat.toDigits_ne_nil, Nat.ofDigitChars_ten_toDigits, value]

theorem number_write (x : Number) {rest : List Char} (stops : Stops rest) :
    number (writeNumber x ++ rest) = some (.float x, rest) := by
  obtain ⟨negative, n, power⟩ := x
  have read := exponent_write power stops
  generalize after : (if power < 0 then ['-'] else []) ++
    (Nat.toDigits 10 power.natAbs ++ rest) = back at read
  have split : digits (Nat.toDigits 10 n ++ 'e' :: back) = (Nat.toDigits 10 n, 'e' :: back) :=
    digits_toDigits n fun c mem => by cases mem; rfl
  have head := head_digits n ('e' :: back) (c := '-') (by decide)
  have text : writeNumber ⟨negative, n, power⟩ ++ rest =
      (if negative then ['-'] else []) ++ (Nat.toDigits 10 n ++ 'e' :: back) := by
    rw [← after]
    simp [writeNumber]
  have plain : fraction ('e' :: back) = some ([], 'e' :: back) := rfl
  rw [text]
  unfold number
  cases negative with
  | false =>
      simp only [Bool.false_eq_true, if_false, List.nil_append, head, decide_false, split,
        no_leading, plain, read, Option.bind_eq_bind, Option.bind_some, ne_eq, not_true_eq_false,
        Option.isSome_some, or_true, if_true, List.append_nil, Nat.ofDigitChars_ten_toDigits,
        Option.getD_some, List.length_nil, Nat.cast_zero, sub_zero]
  | true =>
      simp only [if_true, List.cons_append, List.nil_append, List.head?_cons, decide_true,
        List.tail_cons, split, no_leading, if_false, plain, read, Option.bind_eq_bind,
        Option.bind_some, true_or, List.append_nil, Nat.ofDigitChars_ten_toDigits,
        Option.getD_some, List.length_nil, Nat.cast_zero, sub_zero]

/-! Strings. -/

theorem hexValue_hexDigit {n : Nat} (small : n < 16) : hexValue (hexDigit n) = some n := by
  have all : ∀ n < 16, hexValue (hexDigit n) = some n := by decide
  exact all n small

/-- A code is read back by its four digits. -/
theorem code_hexDigit {n : Nat} (small : n < 0x10000) :
    code (hexDigit (n / 4096)) (hexDigit (n / 256 % 16)) (hexDigit (n / 16 % 16))
      (hexDigit (n % 16)) = some n := by
  unfold code
  rw [hexValue_hexDigit (by omega), hexValue_hexDigit (by omega), hexValue_hexDigit (by omega),
    hexValue_hexDigit (by omega)]
  exact congrArg some (by omega)

theorem string_escape (c : Char) (r : List Char) :
    string (escape c ++ r) = (string r).map fun p => (ofChar c ++ p.1, p.2) := by
  unfold escape
  repeat' split
  next is => subst is; simp [string, unescape]
  next is => subst is; simp [string, unescape]
  next is => subst is; simp [string, unescape]
  next is => subst is; simp [string, unescape]
  next is => subst is; simp [string, unescape]
  next is => subst is; simp [string, unescape]
  next is => subst is; simp [string, unescape]
  next small =>
    have zero : hexDigit (c.toNat / 4096) = '0' ∧ hexDigit (c.toNat / 256 % 16) = '0' := by
      rw [show c.toNat / 4096 = 0 by omega, show c.toNat / 256 % 16 = 0 by omega]
      decide
    have read := code_hexDigit (n := c.toNat) (by omega)
    rw [zero.1, zero.2, show c.toNat / 16 % 16 = c.toNat / 16 by omega] at read
    rw [Utf16.ofChar_plane (by omega)]
    simp [string, read]
  next quote slash _ _ _ _ _ large =>
    rw [List.cons_append, List.nil_append, string.eq_def]
    split <;> simp_all

theorem string_quote (s : String) (r : List Char) :
    string (s.toList.flatMap escape ++ '"' :: r) = some (ofString s, r) := by
  unfold ofString
  induction s.toList with
  | nil => simp [string]
  | cons c cs ih => rw [List.flatMap_cons, List.append_assoc, string_escape, ih]; rfl

theorem string_escapeUnit (u : UInt16) (r : List Char) :
    string (escapeUnit u ++ r) = (string r).map fun p => (u :: p.1, p.2) := by
  have small := u.toNat_lt
  unfold escapeUnit
  split
  next => simp [string, code_hexDigit small]
  next whole =>
    have same : (Char.ofNat u.toNat).toNat = u.toNat := by
      have value := Utf16.toNat_single u
      rwa [Utf16.single, if_neg whole, if_neg whole] at value
    rw [string_escape, Utf16.ofChar_plane (by omega), same, UInt16.ofNat_toNat]
    rfl

theorem string_pair {u v : UInt16} (high : isHigh u = true) (low : isLow v = true)
    (r : List Char) :
    string (pair u v :: r) = (string r).map fun p => (u :: v :: p.1, p.2) := by
  have value := Utf16.toNat_pair high low
  have itself : escape (pair u v) = [pair u v] := by
    have other (c : Char) (plane : c.toNat < 0x10000) : pair u v ≠ c := by
      rintro rfl
      omega
    simp [escape, other, value]
    omega
  have read := string_escape (pair u v) r
  rw [itself, List.cons_append, List.nil_append, Utf16.ofChar_of_pair high low] at read
  exact read

theorem string_escapeUnits (s : Utf16) (r : List Char) :
    string (escapeUnits s ++ '"' :: r) = some (s, r) := by
  induction s using escapeUnits.induct with
  | case1 => simp [escapeUnits, string]
  | case2 u =>
      rw [escapeUnits, string_escapeUnit]
      simp [string]
  | case3 u v rest both ih =>
      obtain ⟨high, low⟩ := Bool.and_eq_true_iff.mp both
      rw [escapeUnits, if_pos both, List.cons_append, string_pair high low, ih]
      rfl
  | case4 u v rest lone ih =>
      rw [escapeUnits, if_neg lone, List.append_assoc, string_escapeUnit, ih]
      rfl

/-! Values. -/

theorem skip_newline (tabs : Bool) (depth : Nat) (cs : List Char) :
    skip (newline tabs depth ++ cs) = skip cs := by
  cases tabs with
  | false => rfl
  | true =>
      have tab (n : Nat) : skip (List.replicate n '\t' ++ cs) = skip cs := by
        induction n with
        | zero => rfl
        | succ n ih => exact ih
      exact tab depth

/-- White space before a value is passed over. -/
theorem value_newline (fuel : Nat) (tabs : Bool) (depth : Nat) (cs : List Char) :
    value fuel (newline tabs depth ++ cs) = value fuel cs := by
  cases fuel with
  | zero => rw [value, value]
  | succ fuel => rw [value, value, skip_newline]

theorem member_newline (fuel : Nat) (tabs : Bool) (depth : Nat) (cs : List Char) :
    member fuel (newline tabs depth ++ cs) = member fuel cs := by
  cases fuel with
  | zero => rw [member, member]
  | succ fuel => rw [member, member, skip_newline]

theorem skip_cons {c : Char} (dark : isSpace c = false) (cs : List Char) :
    skip (c :: cs) = c :: cs := by
  simp [skip, dark]

theorem isSpace_digit {c : Char} (digit : c.isDigit = true) : isSpace c = false := by
  cases space : isSpace c with
  | false => rfl
  | true =>
      simp only [isSpace, Bool.or_eq_true, decide_eq_true_eq] at space
      rcases space with ((rfl | rfl) | rfl) | rfl <;> exact absurd digit (by decide)

/-- A number is read where none of the other values starts. -/
theorem value_digits {fuel : Nat} {c : Char} {cs : List Char} (digit : c.isDigit = true) :
    value (fuel + 1) (c :: cs) = number (c :: cs) := by
  rw [value.eq_def]
  simp only [skip_cons (isSpace_digit digit)]
  split <;> simp_all

theorem value_minus (fuel : Nat) (cs : List Char) :
    value (fuel + 1) ('-' :: cs) = number ('-' :: cs) := by
  rw [value.eq_def]
  simp only [skip_cons (c := '-') (by decide)]
  rfl

/-- Digits are not nothing. -/
theorem exists_toDigits (n : Nat) : ∃ c cs, Nat.toDigits 10 n = c :: cs ∧ c.isDigit = true := by
  obtain ⟨c, cs, is⟩ := List.exists_cons_of_ne_nil (Nat.toDigits_ne_nil (n := n) (b := 10))
  exact ⟨c, cs, is, isDigit_toDigits (n := n) (by rw [is]; exact List.mem_cons_self)⟩

theorem value_toDigits {fuel n : Nat} {rest : List Char} (stops : Stops rest) :
    value (fuel + 1) (Nat.toDigits 10 n ++ rest) = some (.num n, rest) := by
  obtain ⟨c, cs, is, digit⟩ := exists_toDigits n
  rw [← number_toDigits n stops, is]
  exact value_digits digit

theorem writeNumber_starts (x : Number) :
    ∃ c cs, writeNumber x = c :: cs ∧ (c.isDigit = true ∨ c = '-') := by
  obtain ⟨c, cs, is, digit⟩ := exists_toDigits x.digits
  unfold writeNumber
  cases x.negative with
  | false => exact ⟨c, _, by rw [is]; rfl, .inl digit⟩
  | true => exact ⟨'-', _, rfl, .inr rfl⟩

theorem value_writeNumber {fuel : Nat} (x : Number) {rest : List Char} (stops : Stops rest) :
    value (fuel + 1) (writeNumber x ++ rest) = some (.float x, rest) := by
  obtain ⟨c, cs, is, digit | rfl⟩ := writeNumber_starts x
  · rw [← number_write x stops, is]
    exact value_digits digit
  · rw [← number_write x stops, is]
    exact value_minus fuel _

theorem stops_newline (tabs : Bool) (depth : Nat) {c : Char} (cs : List Char)
    (plain : c.isDigit = false ∧ c ≠ '.' ∧ c ≠ 'e' ∧ c ≠ 'E') :
    Stops (newline tabs depth ++ c :: cs) := by
  cases tabs with
  | false => exact stops_cons plain
  | true => exact stops_cons (by decide)

theorem stops_items (tabs : Bool) (depth : Nat) (vs : List Value) (rest : List Char) :
    Stops (writeItems tabs depth vs ++ rest) := by
  cases vs with
  | nil =>
      rw [writeItems, List.append_assoc]
      exact stops_newline tabs depth _ (by decide)
  | cons v vs =>
      rw [writeItems]
      exact stops_cons (by decide)

theorem stops_fields (tabs : Bool) (depth : Nat) (fs : List (String × Value))
    (rest : List Char) : Stops (writeFields tabs depth fs ++ rest) := by
  cases fs with
  | nil =>
      rw [writeFields, List.append_assoc]
      exact stops_newline tabs depth _ (by decide)
  | cons f fs =>
      rw [writeFields]
      exact stops_cons (by decide)

/-- A value starts with no white space and with no bracket that ends a list. -/
theorem write_starts (tabs : Bool) (depth : Nat) (v : Value) :
    ∃ c cs, write tabs depth v = c :: cs ∧ isSpace c = false ∧ c ≠ ']' := by
  have apart {c : Char} (digit : c.isDigit = true) : isSpace c = false ∧ c ≠ ']' := by
    refine ⟨isSpace_digit digit, ?_⟩
    rintro rfl
    exact absurd digit (by decide)
  match v with
  | .null | .bool true | .bool false | .arr [] | .obj [] | .arr (_ :: _)
  | .obj ((_, _) :: _) => exact ⟨_, _, by rw [write], by decide, by decide⟩
  | .str _ => exact ⟨'"', _, by rw [write, List.cons_append], by decide, by decide⟩
  | .num n =>
      obtain ⟨c, cs, is, digit⟩ := exists_toDigits n
      rw [write]
      exact ⟨c, cs, is, apart digit⟩
  | .float x =>
      rw [write]
      obtain ⟨c, cs, is, digit | rfl⟩ := writeNumber_starts x
      · exact ⟨c, cs, is, apart digit⟩
      · exact ⟨'-', cs, is, by decide, by decide⟩

theorem head_write (tabs : Bool) (depth : Nat) (v : Value) (rest : List Char) :
    (skip (write tabs depth v ++ rest)).head? ≠ some ']' := by
  obtain ⟨c, cs, starts, dark, other⟩ := write_starts tabs depth v
  rw [starts, List.cons_append, skip_cons dark]
  simpa using other

theorem quote_append (s : String) (rest : List Char) :
    quote s ++ rest = '"' :: (s.toList.flatMap escape ++ '"' :: rest) := by
  simp [quote]

theorem head_quote (s : String) (rest : List Char) :
    (skip (quote s ++ rest)).head? ≠ some '\x7d' := by
  rw [quote_append, skip_cons (by decide)]
  simp

theorem value_arr (fuel : Nat) (r : List Char) : value (fuel + 1) ('[' :: r) =
    if (skip r).head? = some ']' then some (.arr [], (skip r).tail)
    else (value fuel r).bind fun p => (items fuel p.2).map fun q => (.arr (p.1 :: q.1), q.2) := by
  rw [value.eq_def]
  simp only [skip_cons (c := '[') (by decide)]

theorem value_obj (fuel : Nat) (r : List Char) : value (fuel + 1) ('\x7b' :: r) =
    if (skip r).head? = some '\x7d' then some (.obj [], (skip r).tail)
    else (member fuel r).bind fun p =>
      (fields fuel p.2).map fun q => (.obj (p.1 :: q.1), q.2) := by
  rw [value.eq_def]
  simp only [skip_cons (c := '\x7b') (by decide)]

theorem value_str (fuel : Nat) (s : Utf16) (rest : List Char) :
    value (fuel + 1) ('"' :: escapeUnits s ++ ['"'] ++ rest) = some (.str s, rest) := by
  have text : '"' :: escapeUnits s ++ ['"'] ++ rest = '"' :: (escapeUnits s ++ '"' :: rest) := by
    simp
  rw [text, value.eq_def]
  simp only [skip_cons (c := '"') (by decide), string_escapeUnits, Option.map_some]

/-- A member is its name and, after the colon, its value. -/
theorem member_quote {fuel : Nat} (tabs : Bool) (k : String) {v : Value} {text rest : List Char}
    (read : value fuel text = some (v, rest))
    (space : value fuel (' ' :: text) = value fuel text) :
    member (fuel + 1) (quote k ++ (colon tabs ++ text)) = some ((k, v), rest) := by
  have colon_ : skip (':' :: text) = ':' :: text := skip_cons (by decide) _
  have spaced : skip (':' :: ' ' :: text) = ':' :: ' ' :: text := skip_cons (by decide) _
  rw [quote_append, member.eq_def]
  simp only [skip_cons (c := '"') (by decide), string_quote, Option.bind_some,
    Utf16.text_ofString]
  cases tabs with
  | false => simp [colon, colon_, read]
  | true => simp [colon, spaced, space, read]

theorem value_space (fuel : Nat) (cs : List Char) : value fuel (' ' :: cs) = value fuel cs := by
  cases fuel with
  | zero => rw [value, value]
  | succ fuel => rw [value, value]; rfl

mutual
theorem value_write (tabs : Bool) : ∀ (v : Value) (depth fuel : Nat) (rest : List Char),
    3 * (write tabs depth v).length ≤ fuel + 1 → Stops rest →
      value (fuel + 1) (write tabs depth v ++ rest) = some (v, rest)
  | .null, depth, fuel, rest, enough, stops => by
      rw [write, value.eq_def]
      rfl
  | .bool true, depth, fuel, rest, enough, stops => by
      rw [write, value.eq_def]
      rfl
  | .bool false, depth, fuel, rest, enough, stops => by
      rw [write, value.eq_def]
      rfl
  | .num n, depth, fuel, rest, enough, stops => by
      rw [write]
      exact value_toDigits stops
  | .float x, depth, fuel, rest, enough, stops => by
      rw [write]
      exact value_writeNumber x stops
  | .str s, depth, fuel, rest, enough, stops => by
      rw [write]
      exact value_str fuel s rest
  | .arr [], depth, fuel, rest, enough, stops => by
      rw [write]
      exact (value_arr fuel _).trans (if_pos rfl)
  | .arr (v :: vs), depth, fuel, rest, enough, stops => by
      rw [write] at enough ⊢
      simp only [List.length_cons, List.length_append] at enough
      obtain ⟨fuel, rfl⟩ : ∃ n, fuel = n + 1 := ⟨fuel - 1, by omega⟩
      have first := value_write tabs v (depth + 1) fuel _ (by omega)
        (stops_items tabs depth vs rest)
      have others := items_write tabs vs depth (fuel + 1) rest (by omega)
      simp only [List.cons_append, List.append_assoc]
      rw [value_arr, skip_newline, if_neg (head_write tabs (depth + 1) v _), value_newline, first,
        Option.bind_some, others, Option.map_some]
  | .obj [], depth, fuel, rest, enough, stops => by
      rw [write]
      exact (value_obj fuel _).trans (if_pos rfl)
  | .obj ((k, v) :: fs), depth, fuel, rest, enough, stops => by
      rw [write] at enough ⊢
      simp only [List.length_cons, List.length_append] at enough
      obtain ⟨fuel, rfl⟩ : ∃ n, fuel = n + 2 := ⟨fuel - 2, by omega⟩
      have first := value_write tabs v (depth + 1) fuel _ (by omega)
        (stops_fields tabs depth fs rest)
      have others := fields_write tabs fs depth (fuel + 2) rest (by omega)
      simp only [List.cons_append, List.append_assoc]
      rw [value_obj, skip_newline, if_neg (head_quote k _), member_newline,
        member_quote tabs k first (value_space _ _), Option.bind_some, others, Option.map_some]

theorem items_write (tabs : Bool) : ∀ (vs : List Value) (depth fuel : Nat) (rest : List Char),
    3 * (writeItems tabs depth vs).length ≤ fuel →
      items fuel (writeItems tabs depth vs ++ rest) = some (vs, rest)
  | [], depth, fuel, rest, enough => by
      rw [writeItems] at enough ⊢
      simp only [List.length_cons, List.length_append] at enough
      obtain ⟨fuel, rfl⟩ : ∃ n, fuel = n + 1 := ⟨fuel - 1, by omega⟩
      rw [List.append_assoc, items.eq_def]
      simp only [skip_newline]
      rfl
  | v :: vs, depth, fuel, rest, enough => by
      rw [writeItems] at enough ⊢
      simp only [List.length_cons, List.length_append] at enough
      obtain ⟨fuel, rfl⟩ : ∃ n, fuel = n + 2 := ⟨fuel - 2, by omega⟩
      have first := value_write tabs v (depth + 1) fuel _ (by omega)
        (stops_items tabs depth vs rest)
      have others := items_write tabs vs depth (fuel + 1) rest (by omega)
      rw [List.cons_append, List.append_assoc, List.append_assoc, items.eq_def]
      simp only [skip_cons (c := ',') (by decide), value_newline, first, Option.bind_some, others,
        Option.map_some]

theorem fields_write (tabs : Bool) :
    ∀ (fs : List (String × Value)) (depth fuel : Nat) (rest : List Char),
    3 * (writeFields tabs depth fs).length ≤ fuel →
      fields fuel (writeFields tabs depth fs ++ rest) = some (fs, rest)
  | [], depth, fuel, rest, enough => by
      rw [writeFields] at enough ⊢
      simp only [List.length_cons, List.length_append] at enough
      obtain ⟨fuel, rfl⟩ : ∃ n, fuel = n + 1 := ⟨fuel - 1, by omega⟩
      rw [List.append_assoc, fields.eq_def]
      simp only [skip_newline]
      rfl
  | (k, v) :: fs, depth, fuel, rest, enough => by
      rw [writeFields] at enough ⊢
      simp only [List.length_cons, List.length_append] at enough
      obtain ⟨fuel, rfl⟩ : ∃ n, fuel = n + 3 := ⟨fuel - 3, by omega⟩
      have first := value_write tabs v (depth + 1) fuel _ (by omega)
        (stops_fields tabs depth fs rest)
      have others := fields_write tabs fs depth (fuel + 2) rest (by omega)
      simp only [List.cons_append, List.append_assoc]
      rw [fields.eq_def]
      simp only [skip_cons (c := ',') (by decide), member_newline,
        member_quote tabs k first (value_space _ _), Option.bind_some, others, Option.map_some]
end

theorem length_writeItems (tabs : Bool) (depth : Nat) (vs : List Value) :
    vs.length < (writeItems tabs depth vs).length := by
  induction vs with
  | nil => simp [writeItems]
  | cons v vs ih =>
      simp only [writeItems, List.length_cons, List.length_append]
      omega

/-- A list takes a character for each item at least. -/
theorem length_write_arr (tabs : Bool) (depth : Nat) (vs : List Value) :
    vs.length ≤ (write tabs depth (.arr vs)).length := by
  cases vs with
  | nil => simp
  | cons v vs =>
      have less := length_writeItems tabs depth vs
      simp only [write, List.length_cons, List.length_append]
      omega

theorem length_writeFields (tabs : Bool) (depth : Nat) {k : String} {v : Value}
    {fs : List (String × Value)} (mem : (k, v) ∈ fs) :
    (write tabs (depth + 1) v).length ≤ (writeFields tabs depth fs).length := by
  induction fs with
  | nil => cases mem
  | cons f fs ih =>
      obtain ⟨k', v'⟩ := f
      simp only [writeFields, List.length_cons, List.length_append]
      rcases List.mem_cons.mp mem with here | later
      · cases here
        omega
      · have le := ih later
        omega

/-- An object takes as much as any of its fields. -/
theorem length_write_obj (tabs : Bool) (depth : Nat) {k : String} {v : Value}
    {fs : List (String × Value)} (mem : (k, v) ∈ fs) :
    (write tabs (depth + 1) v).length ≤ (write tabs depth (.obj fs)).length := by
  cases fs with
  | nil => cases mem
  | cons f fs =>
      obtain ⟨k', v'⟩ := f
      simp only [write, List.length_cons, List.length_append]
      rcases List.mem_cons.mp mem with here | later
      · cases here
        omega
      · have le := length_writeFields tabs depth later
        omega

/-- What is written is read back. -/
theorem parse_stringify (tabs : Bool) (v : Value) : parse (stringify tabs v) = some v := by
  have read := value_write tabs v 0 (3 * (write tabs 0 v).length) [] (by omega) stops_nil
  rw [List.append_nil] at read
  rw [parse, stringify, String.toList_ofList, read]
  rfl

/-- A line's end after it does not matter. -/
theorem parse_line (tabs : Bool) (v : Value) : parse (stringify tabs v ++ "\n") = some v := by
  have line : "\n".toList = ['\n'] := by decide
  have stops : Stops ['\n'] := stops_cons ⟨by decide, by decide, by decide, by decide⟩
  have read := value_write tabs v 0 (3 * (write tabs 0 v ++ ['\n']).length) ['\n']
    (by rw [List.length_append]; omega) stops
  rw [parse, stringify, String.toList_append, String.toList_ofList, line, read]
  rfl

end NxgtData.JsonText
