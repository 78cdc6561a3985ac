import NxgtData.Image.Cropped

/-!
`cropPng`'s loop: what reading all of the inflated parts comes to, however they are cut, and
what the region's pixels are by then. `ReadTo` has a case for each way in which it ends.
-/
namespace NxgtData.Image

section ReadTo

variable (stride bpp height : Nat) (data : Bytes) (finish : Finish) {σ : Type}
  (keeps : Nat → σ → Prop) (goOn : Nat → Bool)

/-- What reading the data's rows comes to. -/
inductive ReadTo : Except Fault σ → Prop where
  | whole {s} (done : finish = .done) (length : data.length = height * (stride + 1))
      (filters : ∀ k < height, filterOf stride data k ≤ 4) (kept : keeps height s)
      (going : ∀ k < height, goOn k = true) : ReadTo (.ok s)
  | stopped {s k} (lt : k < height) (given : (k + 1) * (stride + 1) ≤ data.length)
      (filters : ∀ j < k + 1, filterOf stride data j ≤ 4) (kept : keeps (k + 1) s)
      (last : goOn k = false) (going : ∀ j < k, goOn j = true) : ReadTo (.ok s)
  | shorter (done : finish = .done) (short : data.length < height * (stride + 1)) :
      ReadTo (.error (refuse "the pixel data is shorter than the header says"))
  | longer (long : height * (stride + 1) < data.length) :
      ReadTo (.error (refuse "the pixel data is longer than the header says"))
  | unknown {k} (lt : k < height) (given : (k + 1) * (stride + 1) ≤ data.length)
      (filter : 4 < filterOf stride data k) : ReadTo (.error (refuse "a row has an unknown filter"))
  | failed {fault} (is : finish = .failed fault) : ReadTo (.error (unreadable fault))
  | broken (is : finish = .broken) :
      ReadTo (.error (refuse "the pixel data is not valid zlib"))

end ReadTo

/-- The bytes are read in their order, whatever parts they come in. -/
theorem readRows_spec {stride bpp height : Nat} {data : Bytes} {σ : Type}
    {keeps : Nat → σ → Prop} {goOn : Nat → Bool}
    {onRow : Bytes → Nat → σ → Except Fault (σ × Bool)} (pos : 0 < bpp) (wide : bpp ≤ stride)
    (rowed : ∀ row y s, y < height → (y + 1) * (stride + 1) ≤ data.length →
      row.length = 1 + stride → row.drop 1 = imageRow stride bpp data y → keeps y s →
      (∀ k < y, goOn k = true) →
        ∃ s', onRow row y s = .ok (s', goOn y) ∧ keeps (y + 1) s')
    (finish : Finish) (parts : List Bytes) {read : Nat} {rows : Rows stride} {s : σ}
    (reads : Reads bpp height data read rows) (kept : keeps rows.y s)
    (going : ∀ k < rows.y, goOn k = true) (inside : read ≤ data.length)
    (left : data.drop read = parts.flatten) :
    ReadTo stride height data finish keeps goOn
      (readRows height bpp onRow finish parts rows s) := by
  induction parts generalizing read rows s with
  | nil =>
      have all : read = data.length :=
        le_antisymm inside (List.drop_eq_nil_iff.mp left)
      have place := reads.place
      have room := rows.room
      cases finish with
      | done =>
          rw [readRows]
          split
          next early =>
            have below : (rows.y + 1) * (stride + 1) ≤ height * (stride + 1) :=
              Nat.mul_le_mul_right _ early
            rw [Nat.succ_mul] at below
            exact .shorter rfl (by omega)
          next full =>
            have height_ : rows.y = height := le_antisymm reads.fits (Nat.le_of_not_lt full)
            rw [reads.ended height_, height_, Nat.add_zero] at place
            rw [height_] at kept going
            exact .whole rfl (all ▸ place) (height_ ▸ reads.filters) kept going
      | failed fault => exact .failed rfl
      | broken => exact .broken rfl
  | cons part parts ih =>
      rw [List.flatten_cons] at left
      have bound : read + part.length ≤ data.length := by
        have length := congrArg List.length left
        rw [List.length_drop, List.length_append] at length
        omega
      have after : data.drop (read + part.length) = parts.flatten := by
        rw [← List.drop_drop, left, List.drop_left]
      have fed := feed_spec pos wide rowed reads kept going left
      rw [readRows]
      generalize rows.feed height bpp onRow s part = result at fed
      cases fed with
      | more reads kept going =>
          rw [Except.bind]
          exact ih reads kept going bound after
      | stopped reads given kept last =>
          obtain ⟨k, is, off, before⟩ := last
          have filters := reads.filters
          have fits := reads.fits
          rw [is] at given kept filters fits
          exact .stopped (Nat.lt_of_succ_le fits) (by omega) filters kept off before
      | longer long filters => exact .longer (by omega)
      | unknown lt given filter => exact .unknown lt (by omega) filter

/-! The region. -/

/-- A region's numbers are these. -/
def Region.Is (region : Region) (wanted : Rect) : Prop :=
  region.x.integer = some (wanted.x : Int) ∧ region.y.integer = some (wanted.y : Int) ∧
    region.width.integer = some (wanted.width : Int) ∧
    region.height.integer = some (wanted.height : Int)

theorem Region.Is.unique {region : Region} {wanted there : Rect} (is : region.Is wanted)
    (is' : region.Is there) : wanted = there := by
  obtain ⟨x, y, width, height⟩ := is
  obtain ⟨x', y', width', height'⟩ := is'
  cases wanted
  cases there
  rw [Rect.mk.injEq]
  exact ⟨Int.ofNat_inj.mp (Option.some.inj (x.symm.trans x')),
    Int.ofNat_inj.mp (Option.some.inj (y.symm.trans y')),
    Int.ofNat_inj.mp (Option.some.inj (width.symm.trans width')),
    Int.ofNat_inj.mp (Option.some.inj (height.symm.trans height'))⟩

/-- A rectangle of at least a pixel within an image of this size. -/
structure Fits (wanted : Rect) (width height : Nat) : Prop where
  wide : 1 ≤ wanted.width
  tall : 1 ≤ wanted.height
  across : wanted.x + wanted.width ≤ width
  down : wanted.y + wanted.height ≤ height

theorem checkRegion_spec (region : Region) (header : PngHeader) :
    (∃ wanted, checkRegion region header = .ok wanted ∧ region.Is wanted ∧
        Fits wanted header.width header.height) ∨
      checkRegion region header = .error (.region region.x region.y region.width region.height
          header.width header.height) ∧
        ∀ wanted, region.Is wanted → ¬ Fits wanted header.width header.height := by
  rw [checkRegion]
  split
  next x y width height isX isY isWidth isHeight =>
    split
    next out =>
      refine .inr ⟨rfl, fun wanted is fits => ?_⟩
      obtain ⟨wide, tall, across, down⟩ := fits
      obtain ⟨rfl, rfl, rfl, rfl⟩ :
          x = wanted.x ∧ y = wanted.y ∧ width = wanted.width ∧ height = wanted.height :=
        ⟨Option.some.inj (isX.symm.trans is.1), Option.some.inj (isY.symm.trans is.2.1),
          Option.some.inj (isWidth.symm.trans is.2.2.1),
          Option.some.inj (isHeight.symm.trans is.2.2.2)⟩
      omega
    next within =>
      push Not at within
      refine .inl ⟨_, rfl, ⟨?_, ?_, ?_, ?_⟩, ⟨?_, ?_, ?_, ?_⟩⟩ <;> dsimp only
      · rw [isX, Int.toNat_of_nonneg within.1]
      · rw [isY, Int.toNat_of_nonneg within.2.1]
      · rw [isWidth, Int.toNat_of_nonneg (by omega)]
      · rw [isHeight, Int.toNat_of_nonneg (by omega)]
      all_goals omega
  next none_ =>
    exact .inr ⟨rfl, fun wanted is _ => none_ _ _ _ _ is.1 is.2.1 is.2.2.1 is.2.2.2⟩

theorem checkRegion_ok {region : Region} {header : PngHeader} {wanted : Rect}
    (is : region.Is wanted) (fits : Fits wanted header.width header.height) :
    checkRegion region header = .ok wanted := by
  obtain ⟨w, found, is', -⟩ | ⟨-, no⟩ := checkRegion_spec region header
  · rw [found, is'.unique is]
  · exact absurd fits (no wanted is)

/-- The region's pixels after the rows above `y`: what is written, and room for the rest. -/
def Kept (samples : Nat) (row : Nat → Bytes) (wanted : Rect) (y : Nat) (out : Bytes) : Prop :=
  ∃ rest, out = regionRows samples row wanted (y - wanted.y) ++ rest ∧
    (regionRows samples row wanted (y - wanted.y)).length =
      (y - wanted.y) * (wanted.width * channelsOf samples) ∧
    rest.length = (wanted.height - (y - wanted.y)) * (wanted.width * channelsOf samples)

/-- `cropRow`'s answer: whether the row after `y` is read too. -/
def readsOn (header : PngHeader) (wanted : Rect) (y : Nat) : Bool :=
  decide (y < wanted.y + wanted.height - 1) ||
    decide (wanted.y + wanted.height - 1 = header.height - 1)

theorem cropRow_spec {header : PngHeader} {wanted : Rect} {images : Nat → Bytes}
    (stored : Stored header.samples) (fits : Fits wanted header.width header.height)
    {row : Bytes} {y : Nat} {out : Bytes} (lt : y < header.height)
    (length : row.length = 1 + header.width * header.samples) (is : row.drop 1 = images y)
    (kept : Kept header.samples images wanted y out)
    (going : ∀ k < y, readsOn header wanted k = true) :
    ∃ out', cropRow header wanted row y out = .ok (out', readsOn header wanted y) ∧
      Kept header.samples images wanted (y + 1) out' := by
  have tall := fits.tall
  have down := fits.down
  have notAfter : y < wanted.y + wanted.height := by
    by_contra after
    have before := going (y - 1) (by omega)
    simp only [readsOn, Bool.or_eq_true, decide_eq_true_eq] at before
    omega
  rw [cropRow]
  split
  next inside =>
    obtain ⟨rest, rfl, done, room⟩ := kept
    set k := y - wanted.y with k_eq
    have place : k * wanted.width * channelsOf header.samples =
        (regionRows header.samples images wanted k).length := by rw [done, Nat.mul_assoc]
    obtain ⟨left, left_eq⟩ : ∃ left, wanted.height - k = left + 1 :=
      Nat.exists_eq_succ_of_ne_zero (by omega)
    rw [left_eq, Nat.succ_mul] at room
    have below : (row.drop 1).length = header.width * header.samples := by
      rw [List.length_drop, length, Nat.add_sub_cancel_left]
    have long := regionRow_length stored below fits.across
    rw [copyColumns_spec stored length fits.across place (by omega), Except.bind]
    have next : y + 1 - wanted.y = k + 1 := by omega
    have here : images (wanted.y + k) = row.drop 1 := by
      rw [is]
      congr 1
      omega
    refine ⟨_, rfl, rest.drop (wanted.width * channelsOf header.samples), ?_, ?_, ?_⟩
    · rw [next, regionRows, regionRows, range_flatMap_succ, here]
    · rw [next, regionRows, range_flatMap_succ, here, List.length_append, ← regionRows, done, long,
        Nat.succ_mul]
    · rw [List.length_drop, room, next]
      have : wanted.height - (k + 1) = left := by omega
      rw [this, Nat.add_sub_cancel]
  next above =>
    have still : y + 1 - wanted.y = y - wanted.y := by omega
    refine ⟨out, rfl, ?_⟩
    rw [Kept, still]
    exact kept

end NxgtData.Image
