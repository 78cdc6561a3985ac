import NxgtData.Image.Png

/-!
Inflated bytes, in parts of any size, turned into rows. The state after some bytes says how
many of their rows are finished, what the row above is, and how much of the next there is.
-/
namespace NxgtData.Image

/-- `createRowAssembler`'s variables, between two parts: no row under way is full. -/
structure Rows (stride : Nat) where
  previous : Bytes
  current : Bytes
  filled : Nat
  y : Nat
  room : filled ≤ stride

namespace Rows

variable {stride : Nat}

def start (stride : Nat) : Rows stride where
  previous := List.replicate (stride + 1) 0
  current := List.replicate (stride + 1) 0
  filled := 0
  y := 0
  room := Nat.zero_le _

section Feed

variable {σ : Type} (height bpp : Nat) (onRow : Bytes → Nat → σ → Except Fault (σ × Bool))

/-- The rows, what `onRow` made of its variables, and whether to read on. -/
def feed (rows : Rows stride) (s : σ) (part : Bytes) : Except Fault ((Rows stride × σ) × Bool) :=
  if part.length = 0 then .ok ((rows, s), true)
  else if rows.y ≥ height then .error (refuse "the pixel data is longer than the header says")
  else
    let take := min part.length (stride + 1 - rows.filled)
    (setAt rows.current rows.filled (part.take take)).bind fun current =>
      if more : rows.filled + take < stride + 1 then
        feed { rows with current, filled := rows.filled + take, room := Nat.le_of_lt_succ more } s
          (part.drop take)
      else
        match unfilterRow (byte current 0).toNat current rows.previous 1 stride bpp with
        | none => .error (refuse "a row has an unknown filter")
        | some row =>
            (onRow row rows.y s).bind fun (s, goOn) =>
              let next : Rows stride :=
                { previous := row, current := rows.previous, filled := 0, y := rows.y + 1
                  room := Nat.zero_le _ }
              if goOn then feed next s (part.drop take) else .ok ((next, s), false)
termination_by part.length
decreasing_by
  all_goals
    have room := rows.room
    rw [List.length_drop]
    omega

end Feed

end Rows

/-! The rows that bytes hold. -/

/-- The filtered row `k`, its filter first. -/
def line (stride : Nat) (data : Bytes) (k : Nat) : Bytes :=
  (data.drop (k * (stride + 1))).take (stride + 1)

/-- The filter of row `k`. -/
def filterOf (stride : Nat) (data : Bytes) (k : Nat) : Nat := (byte (line stride data k) 0).toNat

/-- The image's row above row `k`: zeros above the first. -/
def above (stride bpp : Nat) (data : Bytes) : Nat → Bytes
  | 0 => List.replicate stride 0
  | k + 1 =>
      recon (filterOf stride data k) bpp ((line stride data k).drop 1) (above stride bpp data k)

/-- Row `k` of the image that the filtered rows stand for. -/
def imageRow (stride bpp : Nat) (data : Bytes) (k : Nat) : Bytes := above stride bpp data (k + 1)

theorem line_length {stride : Nat} {data : Bytes} {k : Nat}
    (whole : (k + 1) * (stride + 1) ≤ data.length) : (line stride data k).length = stride + 1 := by
  rw [line, List.length_take, List.length_drop]
  rw [Nat.succ_mul] at whole
  omega

/-! What is read so far. -/

section Reading

variable {stride : Nat} (bpp height : Nat) (data : Bytes)

/-- The assembler's variables after the first `read` bytes of the data. -/
structure Reads (read : Nat) (rows : Rows stride) : Prop where
  place : read = rows.y * (stride + 1) + rows.filled
  fits : rows.y ≤ height
  ended : rows.y = height → rows.filled = 0
  length : rows.previous.length = 1 + stride
  previous : rows.previous.drop 1 = above stride bpp data rows.y
  length' : rows.current.length = stride + 1
  current : rows.current.take rows.filled = (data.drop (rows.y * (stride + 1))).take rows.filled
  filters : ∀ k < rows.y, filterOf stride data k ≤ 4

variable {σ : Type} (keeps : Nat → σ → Prop) (goOn : Nat → Bool)

/-- What feeding a part comes to, of data of which `stop` bytes are given by then. -/
inductive Fed (stop : Nat) : Except Fault ((Rows stride × σ) × Bool) → Prop where
  | more {rows s} (reads : Reads bpp height data stop rows) (kept : keeps rows.y s)
      (going : ∀ k < rows.y, goOn k = true) : Fed stop (.ok ((rows, s), true))
  | stopped {rows s} (reads : Reads bpp height data (rows.y * (stride + 1)) rows)
      (given : rows.y * (stride + 1) ≤ stop) (kept : keeps rows.y s)
      (last : ∃ k, rows.y = k + 1 ∧ goOn k = false ∧ ∀ j < k, goOn j = true) :
      Fed stop (.ok ((rows, s), false))
  | longer (long : height * (stride + 1) < stop)
      (filters : ∀ k < height, filterOf stride data k ≤ 4) :
      Fed stop (.error (refuse "the pixel data is longer than the header says"))
  | unknown {k} (lt : k < height) (given : (k + 1) * (stride + 1) ≤ stop)
      (filter : 4 < filterOf stride data k) :
      Fed stop (.error (refuse "a row has an unknown filter"))

end Reading

theorem reads_start {stride bpp height : Nat} (data : Bytes) :
    Reads bpp height data 0 (Rows.start stride) where
  place := by simp [Rows.start]
  fits := Nat.zero_le _
  ended _ := rfl
  length := by simp [Rows.start, Nat.add_comm]
  previous := by
    rw [Rows.start, above]
    simp
  length' := by simp [Rows.start]
  current := by simp [Rows.start]
  filters k lt := by cases lt

theorem setAt_ok {array bytes : Bytes} {at_ : Nat} (fits : at_ + bytes.length ≤ array.length) :
    setAt array at_ bytes =
      .ok (array.take at_ ++ bytes ++ array.drop (at_ + bytes.length)) := if_pos fits

theorem take_append_drop_take {data : Bytes} (a b c : Nat) :
    ((data.drop a).take b) ++ (data.drop (a + b)).take c = (data.drop a).take (b + c) := by
  rw [List.take_add, List.drop_drop]

/-- Each part is read on from where the last one ended. -/
theorem feed_spec {stride bpp height : Nat} {data : Bytes} {σ : Type} {keeps : Nat → σ → Prop}
    {goOn : Nat → Bool} {onRow : Bytes → Nat → σ → Except Fault (σ × Bool)} (pos : 0 < bpp)
    (wide : bpp ≤ stride)
    (rowed : ∀ row y s, y < height → (y + 1) * (stride + 1) ≤ data.length →
      row.length = 1 + stride → row.drop 1 = imageRow stride bpp data y → keeps y s →
      (∀ k < y, goOn k = true) →
        ∃ s', onRow row y s = .ok (s', goOn y) ∧ keeps (y + 1) s')
    {read : Nat} {rows : Rows stride} {s : σ} {part rest : Bytes}
    (reads : Reads bpp height data read rows) (kept : keeps rows.y s)
    (going : ∀ k < rows.y, goOn k = true) (split_ : data.drop read = part ++ rest) :
    Fed bpp height data keeps goOn (read + part.length) (rows.feed height bpp onRow s part) := by
  induction count : part.length using Nat.strong_induction_on generalizing read rows s part with
  | _ n ih =>
  subst count
  rw [Rows.feed]
  split
  next empty =>
    rw [empty, Nat.add_zero]
    exact .more reads kept going
  next some_ =>
  split
  next full =>
    have all : rows.y = height := le_antisymm reads.fits full
    have place := reads.place
    rw [all] at place
    exact .longer (by omega) (all ▸ reads.filters)
  next early =>
  have room := rows.room
  have bounds : read + part.length ≤ data.length := by
    have length := congrArg List.length split_
    rw [List.length_drop, List.length_append] at length
    omega
  have place := reads.place
  dsimp only
  set take := min part.length (stride + 1 - rows.filled) with taken
  have lengths : (part.take take).length = take := by
    rw [List.length_take]
    omega
  have slice : part.take take = (data.drop read).take take := by
    rw [split_, List.take_append_of_le_length (by omega)]
  have after : data.drop (read + take) = part.drop take ++ rest := by
    rw [← List.drop_drop, split_, List.drop_append_of_le_length (by omega)]
  -- the row under way, as far as it is filled
  have held : rows.current.take rows.filled ++ part.take take =
      (data.drop (rows.y * (stride + 1))).take (rows.filled + take) := by
    rw [reads.current, slice, place, take_append_drop_take]
  rw [setAt_ok (by rw [lengths, reads.length']; omega), lengths, held, Except.bind]
  set current := (data.drop (rows.y * (stride + 1))).take (rows.filled + take) ++
    rows.current.drop (rows.filled + take) with current_eq
  have heldLength : ((data.drop (rows.y * (stride + 1))).take (rows.filled + take)).length =
      rows.filled + take := by
    rw [List.length_take, List.length_drop]
    omega
  have currentLength : current.length = stride + 1 := by
    rw [current_eq, List.length_append, heldLength, List.length_drop, reads.length']
    omega
  have remaining : read + take + (part.drop take).length = read + part.length := by
    rw [List.length_drop]
    omega
  split
  next more =>
    rw [← remaining]
    refine ih _ (by rw [List.length_drop]; omega) ?_ kept going after rfl
    exact
      { place := by rw [place, Nat.add_assoc]
        fits := reads.fits
        ended := fun all => absurd all (Nat.ne_of_lt (Nat.lt_of_not_le early))
        length := reads.length
        previous := reads.previous
        length' := currentLength
        current := by
          rw [current_eq, List.take_append_of_le_length heldLength.ge, List.take_take, Nat.min_self]
        filters := reads.filters }
  next full =>
  have filled : rows.filled + take = stride + 1 := by omega
  have ends : read + take = (rows.y + 1) * (stride + 1) := by
    rw [Nat.succ_mul, place]
    omega
  have whole : current = line stride data rows.y := by
    rw [current_eq, filled, ← reads.length', List.drop_length, List.append_nil, line, reads.length']
  have given : (rows.y + 1) * (stride + 1) ≤ data.length := by omega
  rw [whole]
  by_cases known : filterOf stride data rows.y ≤ 4
  next =>
    obtain ⟨row, unfiltered, length, -, is⟩ := @unfilterRow_spec _ _ _ _ rows.previous pos wide
      ((line_length given).trans (Nat.add_comm _ _)) known
    rw [filterOf] at unfiltered
    rw [unfiltered]
    rw [reads.previous] at is
    obtain ⟨s', rowed_, kept'⟩ := rowed row rows.y s (by omega) given length is kept going
    dsimp only
    rw [rowed_, Except.bind]
    have next : Reads bpp height data (read + take)
        ({ previous := row, current := rows.previous, filled := 0, y := rows.y + 1
           room := Nat.zero_le _ } : Rows stride) :=
      { place := ends
        fits := Nat.succ_le_of_lt (by omega)
        ended := fun _ => rfl
        length := length
        previous := is
        length' := reads.length.trans (Nat.add_comm _ _)
        current := by rw [List.take_zero, List.take_zero]
        filters := fun k lt => by
          obtain lt | rfl := Nat.lt_succ_iff_lt_or_eq.mp lt
          · exact reads.filters k lt
          · exact known }
    cases on : goOn rows.y with
    | true =>
        simp only [if_true]
        rw [← remaining]
        refine ih _ (by rw [List.length_drop]; omega) next kept' (fun k lt => ?_) after rfl
        obtain lt | rfl := Nat.lt_succ_iff_lt_or_eq.mp lt
        · exact going k lt
        · exact on
    | false =>
        simp only [Bool.false_eq_true, if_false]
        refine .stopped ?_ ?_ kept' ⟨_, rfl, on, going⟩
        · rw [← ends]
          exact next
        · show (rows.y + 1) * (stride + 1) ≤ _
          omega
  next =>
    have refused : unfilterRow (byte (line stride data rows.y) 0).toNat (line stride data rows.y)
        rows.previous 1 stride bpp = none := unfilterRow_unknown (Nat.lt_of_not_le known)
    rw [refused]
    exact .unknown (by omega) (by omega) (Nat.lt_of_not_le known)

end NxgtData.Image
