import Mathlib.Data.List.GetD
import Mathlib.Data.UInt

/-!
The filters of a PNG's rows. `unfilterRow` undoes one in place, byte by byte; `Recon` says of
every byte of a row what it is by the specification: the filtered byte and what the filter
predicts from the bytes to the left and above.
-/
namespace NxgtData.Image

abbrev Bytes := List UInt8

/-- `bytes[i]`, where it is read as a number. -/
def byte (bytes : Bytes) (i : Nat) : UInt8 := bytes.getD i 0

def paeth (a b c : UInt8) : UInt8 :=
  let p : Int := a.toNat + b.toNat - c.toNat
  let pa := (p - a.toNat).natAbs
  let pb := (p - b.toNat).natAbs
  let pc := (p - c.toNat).natAbs
  if pa ≤ pb ∧ pa ≤ pc then a else if pb ≤ pc then b else c

/-- `(left + up) >> 1` -/
def average (left up : UInt8) : UInt8 := UInt8.ofNat ((left.toNat + up.toNat) / 2)

/-- `for (let i = from; ...; i++) row[i] = (row[i] + predicted(row, i)) & 0xff`, `count` times. -/
def overRow (predicted : Bytes → Nat → UInt8) : Nat → Nat → Bytes → Bytes
  | _, 0, row => row
  | i, count + 1, row =>
      overRow predicted (i + 1) count (row.set i (byte row i + predicted row i))

/-- Undoes one row filter in place; `none` for a filter that the specification has not. -/
def unfilterRow (type : Nat) (row previous : Bytes) (offset stride bpp : Nat) : Option Bytes :=
  match type with
  | 0 => some row
  | 1 => some (overRow (fun row i => byte row (i - bpp)) (offset + bpp) (stride - bpp) row)
  | 2 => some (overRow (fun _ i => byte previous i) offset stride row)
  | 3 => some (overRow (fun row i =>
      average (if offset + bpp ≤ i then byte row (i - bpp) else 0) (byte previous i))
      offset stride row)
  | 4 => some (overRow (fun row i =>
      if offset + bpp ≤ i then
        paeth (byte row (i - bpp)) (byte previous i) (byte previous (i - bpp))
      else paeth 0 (byte previous i) 0) offset stride row)
  | _ => none

/-! The specification. -/

/-- What a filter predicts of a byte. -/
def predict (type : Nat) (left up upLeft : UInt8) : UInt8 :=
  match type with
  | 1 => left
  | 2 => up
  | 3 => average left up
  | 4 => paeth left up upLeft
  | _ => 0

/-- The byte one pixel to the left, zero for the first pixel. -/
def leftOf (bpp : Nat) (row : Bytes) (i : Nat) : UInt8 := if bpp ≤ i then byte row (i - bpp) else 0

def predictAt (type bpp : Nat) (row up : Bytes) (i : Nat) : UInt8 :=
  predict type (leftOf bpp row i) (byte up i) (leftOf bpp up i)

/-- The row that a filtered row stands for, below the row `up`. -/
def Recon (type bpp : Nat) (filtered up row : Bytes) : Prop :=
  row.length = filtered.length ∧
    ∀ i < row.length, byte row i = byte filtered i + predictAt type bpp row up i

/-- The row a filtered row stands for, from the bytes done so far. -/
def reconFrom (type bpp : Nat) (up : Bytes) (done : Bytes) : Bytes → Bytes
  | [] => done
  | x :: rest => reconFrom type bpp up (done ++ [x + predictAt type bpp done up done.length]) rest

def recon (type bpp : Nat) (filtered up : Bytes) : Bytes := reconFrom type bpp up [] filtered

/-- A row under a filter of the specification. -/
def filterRow (type bpp : Nat) (up row : Bytes) : Bytes :=
  (List.range row.length).map fun i => byte row i - predictAt type bpp row up i

theorem byte_append_left {a b : Bytes} {i : Nat} (lt : i < a.length) :
    byte (a ++ b) i = byte a i := by
  rw [byte, byte, List.getD_append _ _ _ _ lt]

theorem byte_append_right {a b : Bytes} {i : Nat} (le : a.length ≤ i) :
    byte (a ++ b) i = byte b (i - a.length) := by
  rw [byte, byte, List.getD_append_right _ _ _ _ le]

theorem byte_set {row : Bytes} {i : Nat} (lt : i < row.length) (v : UInt8) (j : Nat) :
    byte (row.set i v) j = if i = j then v else byte row j := by
  rw [byte, byte, List.getD_eq_getElem?_getD, List.getD_eq_getElem?_getD, List.getElem?_set]
  split
  next is => rfl
  next => rfl

theorem bytes_ext {a b : Bytes} (length : a.length = b.length)
    (same : ∀ i < a.length, byte a i = byte b i) : a = b := by
  refine List.ext_getElem length fun i lt lt' => ?_
  have here := same i lt
  rwa [byte, byte, List.getD_eq_getElem _ _ lt, List.getD_eq_getElem _ _ lt'] at here

theorem byte_drop (row : Bytes) (n i : Nat) : byte (row.drop n) i = byte row (n + i) := by
  rw [byte, byte, List.getD_eq_getElem?_getD, List.getD_eq_getElem?_getD, List.getElem?_drop]

/-- A byte is predicted from bytes of its row before it. -/
theorem predictAt_congr {type bpp : Nat} {row row' up : Bytes} {i : Nat} (pos : 0 < bpp)
    (same : ∀ k < i, byte row k = byte row' k) :
    predictAt type bpp row up i = predictAt type bpp row' up i := by
  have left : leftOf bpp row i = leftOf bpp row' i := by
    rw [leftOf, leftOf]
    split
    next le => exact same _ (by omega)
    next => rfl
  rw [predictAt, predictAt, left]

/-- A filtered row stands for one row. -/
theorem recon_unique {type bpp : Nat} {filtered up row row' : Bytes} (pos : 0 < bpp)
    (here : Recon type bpp filtered up row) (there : Recon type bpp filtered up row') :
    row = row' := by
  have length : row.length = row'.length := here.1.trans there.1.symm
  refine bytes_ext length fun i => ?_
  induction i using Nat.strong_induction_on with
  | _ i ih =>
      intro lt
      rw [here.2 i lt, there.2 i (length ▸ lt),
        predictAt_congr pos fun k before => ih k before (by omega)]

theorem reconFrom_spec {type bpp : Nat} {up : Bytes} (pos : 0 < bpp) (rest done filtered : Bytes)
    (seen : Bytes) (split : filtered = seen ++ rest) (length : done.length = seen.length)
    (so : ∀ i < done.length, byte done i = byte filtered i + predictAt type bpp done up i) :
    Recon type bpp filtered up (reconFrom type bpp up done rest) := by
  induction rest generalizing done seen with
  | nil =>
      rw [List.append_nil] at split
      exact ⟨by rw [reconFrom, length, split], so⟩
  | cons x rest ih =>
      rw [reconFrom]
      refine ih _ (seen ++ [x]) (by rw [split, List.append_assoc]; rfl) (by simp [length]) ?_
      intro i lt
      have before {k : Nat} (lt : k < done.length) (v : UInt8) :
          byte (done ++ [v]) k = byte done k := byte_append_left lt
      rw [List.length_append, List.length_singleton] at lt
      by_cases last : i = done.length
      · subst last
        rw [byte_append_right le_rfl, Nat.sub_self,
          predictAt_congr pos fun k lt => before lt _]
        have here : byte filtered done.length = x := by
          rw [split, length, byte_append_right le_rfl, Nat.sub_self]
          rfl
        rw [here]
        rfl
      · have lt : i < done.length := by omega
        rw [before lt, so i lt, predictAt_congr pos fun k lt' => (before (by omega) _).symm]

theorem recon_spec {bpp : Nat} (type : Nat) (filtered up : Bytes) (pos : 0 < bpp) :
    Recon type bpp filtered up (recon type bpp filtered up) :=
  reconFrom_spec pos filtered [] filtered [] rfl rfl fun i lt => by cases lt

/-- A row is the one its filtered row stands for. -/
theorem recon_filterRow {bpp : Nat} (type : Nat) (up row : Bytes) (pos : 0 < bpp) :
    recon type bpp (filterRow type bpp up row) up = row := by
  refine recon_unique pos (recon_spec type _ up pos) ⟨by simp [filterRow], fun i lt => ?_⟩
  have here : byte (filterRow type bpp up row) i = byte row i - predictAt type bpp row up i := by
    rw [byte, filterRow, List.getD_eq_getElem _ _ (by simpa using lt)]
    simp
  rw [here]
  exact (UInt8.sub_add_cancel _ _).symm

/-! The code. -/

theorem overRow_length (predicted : Bytes → Nat → UInt8) (i count : Nat) (row : Bytes) :
    (overRow predicted i count row).length = row.length := by
  induction count generalizing i row with
  | zero => rfl
  | succ count ih => rw [overRow, ih, List.length_set]

theorem overRow_outside (predicted : Bytes → Nat → UInt8) {i count : Nat} {row : Bytes}
    (fits : i + count ≤ row.length) {j : Nat} (out : j < i ∨ i + count ≤ j) :
    byte (overRow predicted i count row) j = byte row j := by
  induction count generalizing i row with
  | zero => rfl
  | succ count ih =>
      rw [overRow, ih (by rw [List.length_set]; omega) (by omega), byte_set (by omega),
        if_neg (by omega)]

/-- Where a byte is predicted from the bytes before it, it is from their final values. -/
theorem overRow_inside {predicted : Bytes → Nat → UInt8}
    (local_ : ∀ r r' j, 0 < j → (∀ k < j, byte r k = byte r' k) → predicted r j = predicted r' j)
    {i count : Nat} {row : Bytes} (pos : 0 < i) (fits : i + count ≤ row.length) {j : Nat}
    (le : i ≤ j) (lt : j < i + count) : byte (overRow predicted i count row) j =
      byte row j + predicted (overRow predicted i count row) j := by
  induction count generalizing i row with
  | zero => omega
  | succ count ih =>
      have fits' : i + 1 + count ≤ (row.set i (byte row i + predicted row i)).length := by
        rw [List.length_set]
        omega
      rw [overRow]
      by_cases first : i = j
      · subst first
        rw [overRow_outside predicted fits' (.inl (by omega)), byte_set (by omega), if_pos rfl]
        congr 1
        refine local_ _ _ _ pos fun k lt => ?_
        rw [overRow_outside predicted fits' (.inl (by omega)), byte_set (by omega),
          if_neg (by omega)]
      · rw [ih (by omega) fits' (by omega) (by omega), byte_set (by omega), if_neg first]

/-- What the code predicts, below the filter byte. -/
theorem overRow_recon {type bpp stride : Nat} {row previous : Bytes}
    {predicted : Bytes → Nat → UInt8} (length : row.length = 1 + stride)
    (here : ∀ r i, predicted r (1 + i) = predictAt type bpp (r.drop 1) (previous.drop 1) i)
    (first : ∀ r r' j, 0 < j → (∀ k < j, byte r k = byte r' k) → predicted r j = predicted r' j) :
    Recon type bpp (row.drop 1) (previous.drop 1) ((overRow predicted 1 stride row).drop 1) := by
  refine ⟨by rw [List.length_drop, List.length_drop, overRow_length], fun i lt => ?_⟩
  rw [List.length_drop, overRow_length] at lt
  rw [byte_drop, byte_drop, overRow_inside first (by omega) (by omega) (by omega) (by omega), here]

theorem head_overRow (predicted : Bytes → Nat → UInt8) {row : Bytes} {i count : Nat} (pos : 0 < i)
    (fits : i + count ≤ row.length) : byte (overRow predicted i count row) 0 = byte row 0 :=
  overRow_outside predicted fits (.inl pos)

/-- `unfilterRow` keeps the filter byte and makes of the rest the row it stands for. -/
theorem unfilterRow_spec {type bpp stride : Nat} {row previous : Bytes} (pos : 0 < bpp)
    (fits : bpp ≤ stride) (length : row.length = 1 + stride) (known : type ≤ 4) :
    ∃ r, unfilterRow type row previous 1 stride bpp = some r ∧ r.length = 1 + stride ∧
      byte r 0 = byte row 0 ∧
      r.drop 1 = recon type bpp (row.drop 1) (previous.drop 1) := by
  have spec := @recon_spec bpp type (row.drop 1) (previous.drop 1) pos
  have left (r : Bytes) (i : Nat) :
      (if 1 + bpp ≤ 1 + i then byte r (1 + i - bpp) else 0) = leftOf bpp (r.drop 1) i := by
    rw [leftOf]
    by_cases le : bpp ≤ i
    · rw [if_pos le, if_pos (by omega), byte_drop]
      congr 1
      omega
    · rw [if_neg le, if_neg (by omega)]
  match type, known with
  | 0, _ =>
      refine ⟨row, rfl, length, rfl, recon_unique pos ⟨rfl, fun i lt => ?_⟩ spec⟩
      exact (UInt8.add_zero _).symm
  | 1, _ =>
      refine ⟨_, rfl, by rw [overRow_length, length],
        head_overRow _ (by omega) (by omega), recon_unique pos ⟨?_, fun i lt => ?_⟩ spec⟩
      · rw [List.length_drop, List.length_drop, overRow_length]
      · rw [List.length_drop, overRow_length] at lt
        rw [byte_drop, byte_drop, predictAt, predict, leftOf]
        have first (r r' : Bytes) (j : Nat) (later : 0 < j)
            (same : ∀ k < j, byte r k = byte r' k) : byte r (j - bpp) = byte r' (j - bpp) :=
          same _ (by omega)
        by_cases le : bpp ≤ i
        · rw [if_pos le, overRow_inside first (by omega) (by omega) (by omega) (by omega),
            byte_drop]
          congr 2
          omega
        · rw [if_neg le, overRow_outside _ (by omega) (.inl (by omega)), UInt8.add_zero]
  | 2, _ =>
      refine ⟨_, rfl, by rw [overRow_length, length], head_overRow _ (by omega) (by omega),
        recon_unique pos (overRow_recon length (fun r i => ?_) fun r r' j _ _ => rfl) spec⟩
      rw [predictAt, predict, byte_drop]
  | 3, _ =>
      refine ⟨_, rfl, by rw [overRow_length, length], head_overRow _ (by omega) (by omega),
        recon_unique pos (overRow_recon length (fun r i => ?_) fun r r' j _ same => ?_) spec⟩
      · rw [predictAt, predict, byte_drop, ← left r]
      · split
        next le => rw [same _ (by omega)]
        next => rfl
  | 4, _ =>
      refine ⟨_, rfl, by rw [overRow_length, length], head_overRow _ (by omega) (by omega),
        recon_unique pos (overRow_recon length (fun r i => ?_) fun r r' j _ same => ?_) spec⟩
      · rw [predictAt, predict, byte_drop, ← left r, ← left previous]
        split <;> rfl
      · split
        next le => rw [same _ (by omega)]
        next => rfl

/-- Any other filter is refused. -/
theorem unfilterRow_unknown {type bpp stride offset : Nat} {row previous : Bytes}
    (unknown : 4 < type) : unfilterRow type row previous offset stride bpp = none := by
  match type, unknown with
  | type + 5, _ => rfl

end NxgtData.Image
