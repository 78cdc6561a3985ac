import Mathlib.Tactic.NormNum
import NxgtData.Lib.CodeUnits

/-!
JavaScript strings as the language holds them, lists of UTF-16 units, and the
text they are sent as: a surrogate pair is one character and a lone surrogate is
U+FFFD. A string's length counts units, a script's counts the bytes of the text;
three bytes a unit is the most there can be.
-/
namespace NxgtData

abbrev Utf16 := List UInt16

namespace Utf16

instance lawfulBEq : LawfulBEq Utf16 := inferInstance

def isHigh (u : UInt16) : Bool := 0xD800 ≤ u.toNat && u.toNat ≤ 0xDBFF

def isLow (u : UInt16) : Bool := 0xDC00 ≤ u.toNat && u.toNat ≤ 0xDFFF

/-- A unit that `\s` matches and `trim` drops. -/
def isSpace (u : UInt16) : Bool :=
  let n := u.toNat
  9 ≤ n && n ≤ 13 || n = 32 || n = 0xA0 || n = 0x1680 || 0x2000 ≤ n && n ≤ 0x200A ||
    n = 0x2028 || n = 0x2029 || n = 0x202F || n = 0x205F || n = 0x3000 || n = 0xFEFF

def trim (s : Utf16) : Utf16 :=
  ((s.dropWhile isSpace).reverse.dropWhile isSpace).reverse

/-- The character of a unit that is no half of a pair. -/
def single (u : UInt16) : Char :=
  if isHigh u || isLow u then Char.ofNat 0xFFFD else Char.ofNat u.toNat

def pair (high low : UInt16) : Char :=
  Char.ofNat (0x10000 + (high.toNat - 0xD800) * 0x400 + (low.toNat - 0xDC00))

def chars : Utf16 → List Char
  | [] => []
  | [u] => [single u]
  | u :: v :: rest =>
      if isHigh u && isLow v then pair u v :: chars rest else single u :: chars (v :: rest)

/-- The text a string is sent as. -/
def text (s : Utf16) : String := String.ofList (chars s)

/-- The units of a character. -/
def ofChar (c : Char) : Utf16 := (CodeUnits.units c).map UInt16.ofNat

/-- The units of a text. -/
def ofString (s : String) : Utf16 := s.toList.flatMap ofChar

/-- The text that these are the units of: of a string with a lone surrogate there is none. -/
def string? (s : Utf16) : Option String := if ofString (text s) = s then some (text s) else none

/-- The units of a text without characters past U+FFFF, as the source writes its own. -/
def ofText (s : String) : Utf16 := s.toList.map fun c => UInt16.ofNat c.toNat

theorem toNat_ofNat {n : Nat} (h : n.isValidChar) : (Char.ofNat n).toNat = n := by
  rw [Char.ofNat, dif_pos h]
  rfl

theorem toNat_single (u : UInt16) :
    (single u).toNat = if isHigh u || isLow u then 0xFFFD else u.toNat := by
  have bound := u.toNat_lt
  unfold single
  split
  next => exact toNat_ofNat (by decide)
  next lone =>
    refine toNat_ofNat ?_
    simp only [isHigh, isLow, Bool.or_eq_true, Bool.and_eq_true, decide_eq_true_eq] at lone
    unfold Nat.isValidChar
    omega

theorem toNat_pair {u v : UInt16} (high : isHigh u = true) (low : isLow v = true) :
    (pair u v).toNat = 0x10000 + (u.toNat - 0xD800) * 0x400 + (v.toNat - 0xDC00) := by
  simp only [isHigh, isLow, Bool.and_eq_true, decide_eq_true_eq] at high low
  refine toNat_ofNat ?_
  unfold Nat.isValidChar
  omega

theorem utf8Size_single (u : UInt16) : (single u).utf8Size ≤ 3 := by
  have value := toNat_single u
  have bound := u.toNat_lt
  have short : (single u).toNat ≤ 0xFFFF := by
    rw [value]
    split <;> omega
  rcases (single u).utf8Size_eq with size | size | size | size
  next => omega
  next => omega
  next => omega
  next =>
    have long : 0xFFFF < (single u).toNat := UInt32.lt_iff_toNat_lt.mp
      (Char.utf8Size_eq_four_iff.mp size)
    omega

theorem chars_pair {u v : UInt16} (rest : Utf16) (both : (isHigh u && isLow v) = true) :
    chars (u :: v :: rest) = pair u v :: chars rest := by
  rw [chars, if_pos both]

theorem chars_single {u v : UInt16} (rest : Utf16) (lone : ¬ (isHigh u && isLow v) = true) :
    chars (u :: v :: rest) = single u :: chars (v :: rest) := by
  rw [chars, if_neg lone]

/-- No text is longer in bytes than three for each unit. -/
theorem utf8ByteSize_text (s : Utf16) : (text s).utf8ByteSize ≤ 3 * s.length := by
  unfold text
  induction s using chars.induct with
  | case1 => exact le_rfl
  | case2 u =>
      have three := utf8Size_single u
      simpa [chars] using three
  | case3 u v rest both ih =>
      have four := (pair u v).utf8Size_le_four
      rw [chars_pair rest both, String.ofList_cons, String.utf8ByteSize_append,
        String.utf8ByteSize_singleton]
      simp only [List.length_cons]
      omega
  | case4 u v rest lone ih =>
      have three := utf8Size_single u
      rw [chars_single rest lone, String.ofList_cons, String.utf8ByteSize_append,
        String.utf8ByteSize_singleton]
      simp only [List.length_cons] at ih ⊢
      omega

theorem toNat_unit {n : Nat} (h : n < 0xD800) : (UInt16.ofNat n).toNat = n := by
  rw [UInt16.toNat_ofNat']
  omega

theorem eq_single_iff {u : UInt16} {c : Char} (h : c.toNat < 0xD800) :
    c = single u ↔ UInt16.ofNat c.toNat = u := by
  have value := toNat_single u
  have back := toNat_unit h
  constructor
  · rintro rfl
    refine UInt16.toNat_inj.mp (back.trans ?_)
    rw [value] at h ⊢
    split at h
    next => omega
    next whole => rw [if_neg whole]
  · rintro rfl
    refine Char.toNat_inj.mp ?_
    rw [value, back, if_neg]
    simp only [isHigh, isLow, back, Bool.or_eq_true, Bool.and_eq_true, decide_eq_true_eq]
    omega

/-- A character below the surrogates is in the text exactly when its unit is in
the string. -/
theorem mem_text {s : Utf16} {c : Char} (h : c.toNat < 0xD800) :
    c ∈ (text s).toList ↔ UInt16.ofNat c.toNat ∈ s := by
  rw [text, String.toList_ofList]
  induction s using chars.induct with
  | case1 => simp [chars]
  | case2 u => simp [chars, eq_single_iff h]
  | case3 u v rest both ih =>
      rw [chars_pair rest both]
      obtain ⟨high, low⟩ := Bool.and_eq_true_iff.mp both
      have back := toNat_unit h
      have value := toNat_pair high low
      have ne : c ≠ pair u v := fun eq => by rw [← eq] at value; omega
      have ne_high : UInt16.ofNat c.toNat ≠ u := by
        rintro rfl
        simp only [isHigh, back, Bool.and_eq_true, decide_eq_true_eq] at high
        omega
      have ne_low : UInt16.ofNat c.toNat ≠ v := by
        rintro rfl
        simp only [isLow, back, Bool.and_eq_true, decide_eq_true_eq] at low
        omega
      simp [ih, ne, ne_high, ne_low]
  | case4 u v rest lone ih =>
      rw [chars_single rest lone, List.mem_cons, List.mem_cons, eq_single_iff h, ih]

theorem ofChar_plane {c : Char} (plane : c.toNat < 0x10000) :
    ofChar c = [UInt16.ofNat c.toNat] := by
  rw [ofChar, CodeUnits.units, if_pos plane]
  rfl

theorem single_ofNat {c : Char} (plane : c.toNat < 0x10000) :
    single (UInt16.ofNat c.toNat) = c ∧ isHigh (UInt16.ofNat c.toNat) = false ∧
      isLow (UInt16.ofNat c.toNat) = false := by
  have valid := CodeUnits.plane c
  have back : (UInt16.ofNat c.toNat).toNat = c.toNat := by
    rw [UInt16.toNat_ofNat']
    omega
  have high : isHigh (UInt16.ofNat c.toNat) = false := by
    rw [isHigh, back]
    simp
    omega
  have low : isLow (UInt16.ofNat c.toNat) = false := by
    rw [isLow, back]
    simp
    omega
  refine ⟨Char.toNat_inj.mp ?_, high, low⟩
  rw [toNat_single, high, low, back]
  rfl

/-- A character past U+FFFF is a pair. -/
theorem ofChar_pair {c : Char} (beyond : ¬ c.toNat < 0x10000) : ∃ u v, ofChar c = [u, v] ∧
    isHigh u = true ∧ isLow v = true ∧ pair u v = c := by
  have valid := CodeUnits.plane c
  have back : (UInt16.ofNat (0xD800 + (c.toNat - 0x10000) / 0x400)).toNat =
      0xD800 + (c.toNat - 0x10000) / 0x400 := by
    rw [UInt16.toNat_ofNat']
    omega
  have back' : (UInt16.ofNat (0xDC00 + (c.toNat - 0x10000) % 0x400)).toNat =
      0xDC00 + (c.toNat - 0x10000) % 0x400 := by
    rw [UInt16.toNat_ofNat']
    omega
  have high : isHigh (UInt16.ofNat (0xD800 + (c.toNat - 0x10000) / 0x400)) = true := by
    rw [isHigh, back]
    simp
    omega
  have low : isLow (UInt16.ofNat (0xDC00 + (c.toNat - 0x10000) % 0x400)) = true := by
    rw [isLow, back']
    simp
    omega
  refine ⟨_, _, ?_, high, low, Char.toNat_inj.mp ?_⟩
  · rw [ofChar, CodeUnits.units, if_neg beyond]
    rfl
  · rw [toNat_pair high low, back, back']
    omega

theorem ofChar_of_pair {u v : UInt16} (high : isHigh u = true) (low : isLow v = true) :
    ofChar (pair u v) = [u, v] := by
  have value := toNat_pair high low
  simp only [isHigh, isLow, Bool.and_eq_true, decide_eq_true_eq] at high low
  have back : 0xD800 + ((pair u v).toNat - 0x10000) / 0x400 = u.toNat := by omega
  have back' : 0xDC00 + ((pair u v).toNat - 0x10000) % 0x400 = v.toNat := by omega
  rw [ofChar, CodeUnits.units, if_neg (by omega), back, back']
  simp

theorem chars_cons {u : UInt16} (whole : isHigh u = false) (rest : Utf16) :
    chars (u :: rest) = single u :: chars rest := by
  cases rest with
  | nil => rfl
  | cons v rest => exact chars_single rest (by simp [whole])

theorem chars_ofString (s : String) : chars (ofString s) = s.toList := by
  unfold ofString
  induction s.toList with
  | nil => rfl
  | cons c cs ih =>
      rw [List.flatMap_cons]
      by_cases plane : c.toNat < 0x10000
      · obtain ⟨same, whole, -⟩ := single_ofNat plane
        rw [ofChar_plane plane, List.cons_append, List.nil_append, chars_cons whole, ih, same]
      · obtain ⟨u, v, units, high, low, same⟩ := ofChar_pair plane
        have both : (isHigh u && isLow v) = true := by rw [high, low]; rfl
        rw [units, List.cons_append, List.cons_append, List.nil_append, chars_pair _ both, ih, same]

theorem text_ofString (s : String) : text (ofString s) = s := by
  rw [text, chars_ofString, String.ofList_toList]

theorem ofString_injective {s t : String} (same : ofString s = ofString t) : s = t := by
  rw [← text_ofString s, same, text_ofString]

theorem string?_eq_some {s : Utf16} {t : String} : string? s = some t ↔ s = ofString t := by
  unfold string?
  constructor
  · intro is
    split at is
    next whole => rw [← Option.some.inj is, whole]
    next => cases is
  · rintro rfl
    rw [text_ofString, if_pos rfl]

end Utf16
end NxgtData
